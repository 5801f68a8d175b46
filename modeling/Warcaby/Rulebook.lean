import Warcaby.Ownership
import Mathlib.Data.Seq.Basic

/-! The rule as a player reads it, on the four typed numbers themselves: no ply, no
direction, no scan. A call of `make_move` returns at the first quadruple that is
legal by it, on the board with that one quadruple applied. -/
namespace Warcaby.Rulebook
open Grid (Inside get write)
open MakeMove Rule Turn

def square (board : Board) (x y : Int) : Byte := get board (x - 1) (y - 1)

structure OnBoard (q : Coordinates) : Prop where
  x1 : 1 ≤ q.x1 ∧ q.x1 ≤ boardSize
  y1 : 1 ≤ q.y1 ∧ q.y1 ≤ boardSize
  x2 : 1 ≤ q.x2 ∧ q.x2 ≤ boardSize
  y2 : 1 ≤ q.y2 ∧ q.y2 ≤ boardSize

def middle (board : Board) (q : Coordinates) : Byte :=
  square board ((q.x1 + q.x2) / 2) ((q.y1 + q.y2) / 2)

def stepped (board : Board) (q : Coordinates) (k : Nat) : Byte :=
  square board (q.x1 + k * (q.x2 - q.x1).sign) (q.y1 + k * (q.y2 - q.y1).sign)

structure ManMove (board : Board) (p : Colour) (q : Coordinates) : Prop where
  source : square board q.x1 q.y1 = p.man
  reach : ∃ k : Int, q.x2 = q.x1 + k * p.forward ∧ (q.y2 = q.y1 + k ∨ q.y2 = q.y1 - k) ∧
    (k = 1 ∨ k = 2 ∧ middle board q = p.other.man)

structure KingMove (board : Board) (c : Colour) (q : Coordinates) (n : Nat) : Prop where
  source : square board q.x1 q.y1 = c.king
  moves : 1 ≤ n
  rows : (q.x2 - q.x1).natAbs = n
  columns : (q.y2 - q.y1).natAbs = n
  between : ∀ i, 0 < i → i < n → stepped board q i ≠ blank → stepped board q i = c.other.man
  one : ∀ i j, 0 < i → i < j → j < n → stepped board q i = blank ∨ stepped board q j = blank

structure LegalMove (board : Board) (p : Colour) (q : Coordinates) : Prop where
  onBoard : OnBoard q
  empty : square board q.x2 q.y2 = blank
  piece : ManMove board p q ∨ ∃ c n, KingMove board c q n

def Between (q : Coordinates) (x y : Int) : Prop :=
  ∃ k < (q.x2 - q.x1).natAbs, 0 < k ∧
    x = q.x1 + k * (q.x2 - q.x1).sign ∧ y = q.y1 + k * (q.y2 - q.y1).sign
instance (q x y) : Decidable (Between q x y) := by unfold Between; infer_instance

/- The source and the squares passed over are empty afterwards; the piece stands
on the target, as a king if it is a man on its last row. -/
def applied (board : Board) (q : Coordinates) : Board := fun i j =>
  if (i : Int) + 1 = q.x1 ∧ (j : Int) + 1 = q.y1 then blank
  else if (i : Int) + 1 = q.x2 ∧ (j : Int) + 1 = q.y2 then crowned (square board q.x1 q.y1) i
  else if Between q ((i : Int) + 1) ((j : Int) + 1) then blank
  else board i j

section Spelling
variable {board : Board} {p : Colour} {m : Ply} {q : Coordinates}

theorem typedSigns (diagonal : Diagonal m) :
    (m.typed.x2 - m.typed.x1).sign = m.dirX ∧ (m.typed.y2 - m.typed.y1).sign = m.dirY := by
  have along := alongOfVars diagonal
  have rows : m.typed.x2 - m.typed.x1 = m.vars.x2 - m.vars.x1 := by simp only [Ply.typed, Ply.vars]; omega
  have columns : m.typed.y2 - m.typed.y1 = m.vars.y2 - m.vars.y1 := by
    simp only [Ply.typed, Ply.vars]; omega
  rw [rows, columns]
  exact ⟨congrArg Ply.dirX along, congrArg Ply.dirY along⟩

theorem typedLength (diagonal : Diagonal m) :
    (m.typed.x2 - m.typed.x1).natAbs = m.distance ∧ (m.typed.y2 - m.typed.y1).natAbs = m.distance := by
  have length := diagonalLength diagonal
  simp only [Ply.vars] at length
  simp only [Ply.typed]
  omega

theorem typedSource (board : Board) (m : Ply) :
    square board m.typed.x1 m.typed.y1 = m.cell board 0 := by
  rw [square, Ply.cell, Ply.rowZero, Ply.columnZero]
  simp [Ply.typed]

theorem typedTarget (board : Board) (m : Ply) :
    square board m.typed.x2 m.typed.y2 = m.cell board m.distance := by
  simp [square, Ply.cell, Ply.typed]

theorem typedStepped (diagonal : Diagonal m) (board : Board) (k : Nat) :
    stepped board m.typed k = m.cell board k := by
  have signs := typedSigns diagonal
  have row : m.typed.x1 + k * m.dirX - 1 = m.row k := by simp only [Ply.typed, Ply.row]; omega
  have column : m.typed.y1 + k * m.dirY - 1 = m.column k := by
    simp only [Ply.typed, Ply.column]; omega
  rw [stepped, signs.1, signs.2, square, row, column, Ply.cell]

theorem typedMiddle (board : Board) (two : m.distance = 2) :
    middle board m.typed = m.cell board 1 := by
  have row : (m.typed.x1 + m.typed.x2) / 2 - 1 = m.row 1 := by
    simp only [Ply.typed, Ply.row, two]; omega
  have column : (m.typed.y1 + m.typed.y2) / 2 - 1 = m.column 1 := by
    simp only [Ply.typed, Ply.column, two]; omega
  rw [middle, square, row, column, Ply.cell]

theorem typedOnBoard (diagonal : Diagonal m) : OnBoard m.typed := by
  have source := diagonal.source
  have target := diagonal.target
  unfold Inside at source target
  constructor <;> simp only [Ply.typed, boardSize] <;> omega

theorem onBoardInside (onBoard : OnBoard q) :
    Inside 8 8 (q.x1 - 1) (q.y1 - 1) ∧ Inside 8 8 (q.x2 - 1) (q.y2 - 1) := by
  obtain ⟨x1, y1, x2, y2⟩ := onBoard
  simp only [boardSize] at x1 y1 x2 y2
  unfold Inside
  omega

theorem foeOfColour (c : Colour) : foe c.man = c.other.man := by cases c <;> rfl

end Spelling

section Sound
variable {board : Board} {p : Colour} {m : Ply}

theorem manMoveOfStep (legal : Legal board p.man m) (man : m.cell board 0 = p.man) :
    ManMove board p m.typed := by
  obtain ⟨forward, reach⟩ := manMover legal man
  have row : m.typed.x2 = m.typed.x1 + m.distance * p.forward := by
    simp only [Ply.typed, Ply.row, forward]; omega
  have column : m.typed.y2 = m.typed.y1 + m.distance ∨ m.typed.y2 = m.typed.y1 - m.distance := by
    simp only [Ply.typed, Ply.column]
    rcases legal.diagonal.dirY with right | left
    · rw [right]; omega
    · rw [left]; omega
  refine ⟨(typedSource board m).trans man, m.distance, row, column, ?_⟩
  rcases reach with one | ⟨two, jumped⟩
  · exact .inl (by omega)
  · have captured := (legal.passage.jump 1 jumped).2.2
    rw [man, foeOfColour] at captured
    exact .inr ⟨by omega, (typedMiddle board two).trans captured⟩

theorem kingMoveOfStep {c : Colour} (legal : Legal board p.man m) (king : m.cell board 0 = c.king) :
    KingMove board c m.typed m.distance := by
  have length := typedLength legal.diagonal
  have occupied : ∀ k, 0 < k → k < m.distance → m.cell board k ≠ blank →
      m.jumped = some k ∧ m.cell board k = foe (m.cell board 0) :=
    fun k positive near => occupiedJumped (show Passage board (m.jumping m.jumped) from legal.passage)
      positive near
  refine ⟨(typedSource board m).trans king, legal.diagonal.moves, length.1, length.2, ?_, ?_⟩
  · intro i positive near full
    rw [typedStepped legal.diagonal] at full ⊢
    have captured := (occupied i positive near full).2
    rwa [king, Ownership.foeOfKing] at captured
  · intro i j positive before near
    rw [typedStepped legal.diagonal, typedStepped legal.diagonal]
    by_contra both
    obtain ⟨first, second⟩ := not_or.mp both
    have left := (occupied i positive (by omega) first).1
    have right := (occupied j (by omega) near second).1
    have same : i = j := Option.some.inj (left.symm.trans right)
    omega

theorem legalMoveOfPly (legal : Legal board p.man m) : LegalMove board p m.typed := by
  refine ⟨typedOnBoard legal.diagonal, (typedTarget board m).trans legal.empty, ?_⟩
  rcases legal.mover with ⟨c, same, man, _⟩ | king | king
  · exact .inl (manMoveOfStep legal (man.trans same.symm))
  · exact .inr ⟨.x, m.distance, kingMoveOfStep legal king⟩
  · exact .inr ⟨.o, m.distance, kingMoveOfStep legal king⟩

end Sound

section Complete
variable {board : Board} {p : Colour} {q : Coordinates}

def vars (q : Coordinates) : Coordinates := ⟨q.x1 - 1,q.y1 - 1,q.x2 - 1,q.y2 - 1⟩

theorem typedOfVars {m : Ply} (same : m.vars = vars q) : m.typed = q := by
  cases q
  simp only [Ply.vars, vars, Coordinates.mk.injEq] at same
  simp only [Ply.typed, Coordinates.mk.injEq]
  omega

theorem plyOfManMove (onBoard : OnBoard q) (empty : square board q.x2 q.y2 = blank)
    (man : ManMove board p q) : ∃ m : Ply, m.typed = q ∧ Legal board p.man m := by
  obtain ⟨source, k, row, column, reach⟩ := man
  have inside := onBoardInside onBoard
  have positive : 0 < k := by rcases reach with one | ⟨two, _⟩ <;> omega
  have unit : p.forward * p.forward = 1 := by cases p <;> rfl
  have here : get board (vars q).x1 (vars q).y1 = p.man := source
  have vacant : get board (vars q).x2 (vars q).y2 = blank := empty
  have rows : (vars q).x2 - (vars q).x1 = k * p.forward := by simp only [vars, row]; omega
  have directed : 0 < ((vars q).x2 - (vars q).x1) * p.forward := by
    rw [rows, Int.mul_assoc, unit, Int.mul_one]
    exact positive
  have dx : ((vars q).x2 - (vars q).x1).natAbs = k.natAbs := by
    rw [rows, Int.natAbs_mul]
    cases p <;> exact Nat.mul_one _
  have dy : ((vars q).y2 - (vars q).y1).natAbs = k.natAbs := by simp only [vars]; omega
  have slope := dx.trans dy.symm
  rcases reach with one | ⟨two, captured⟩
  · have passage : Passage board (Ply.along (vars q) none) := stepPassage (dx.trans (by omega)) rfl
    exact ⟨_, typedOfVars (alongVars slope none), alongLegal inside.1 inside.2 here vacant directed
      slope (.inl (by omega)) passage⟩
  · have vars' := alongVars slope (some 1)
    have length : (Ply.along (vars q) (some 1)).distance = 2 := by
      change ((vars q).x2 - (vars q).x1).natAbs = 2
      omega
    have middle := typedMiddle board length
    rw [typedOfVars vars', captured] at middle
    have passage : Passage board (Ply.along (vars q) (some 1)) :=
      middlePassage length rfl (by rw [ownerAt here vars', foeOfColour]; exact middle.symm)
    exact ⟨_, typedOfVars vars', alongLegal inside.1 inside.2 here vacant directed slope
      (.inr ⟨by omega, rfl⟩) passage⟩

theorem kingPassage {c : Colour} {m : Ply} (king : m.cell board 0 = c.king)
    (between : ∀ i, 0 < i → i < m.distance → m.cell board i ≠ blank →
      m.cell board i = c.other.man)
    (one : ∀ i j, 0 < i → i < j → j < m.distance →
      m.cell board i = blank ∨ m.cell board j = blank) :
    ∃ j, Passage board (m.jumping j) := by
  by_cases clear : ∀ i, 0 < i → i < m.distance → m.cell board i = blank
  · exact ⟨none, nofun, fun i positive near _ => clear i positive near⟩
  · push Not at clear
    obtain ⟨k, positive, near, full⟩ := clear
    have captured := between k positive near full
    rw [← Ownership.foeOfKing, ← king] at captured
    refine ⟨some k, jumpPassage rfl ⟨positive, near⟩ captured (fun i first below other => ?_)⟩
    rcases Nat.lt_or_gt_of_ne other with before | after
    · exact (one i k first before near).resolve_right full
    · exact (one k i positive after below).resolve_left full

theorem plyOfKingMove {c : Colour} {n : Nat} (player : Byte) (onBoard : OnBoard q)
    (empty : square board q.x2 q.y2 = blank) (king : KingMove board c q n) :
    ∃ m : Ply, m.typed = q ∧ Legal board player m := by
  obtain ⟨source, moves, rows, columns, between, one⟩ := king
  have inside := onBoardInside onBoard
  have dx : ((vars q).x2 - (vars q).x1).natAbs = n := by simp only [vars]; omega
  have dy : ((vars q).y2 - (vars q).y1).natAbs = n := by simp only [vars]; omega
  have slope := dx.trans dy.symm
  have typed (j : Option Nat) : (Ply.along (vars q) j).typed = q := typedOfVars (alongVars slope j)
  have diagonal (j : Option Nat) : Diagonal (Ply.along (vars q) j) :=
    alongDiagonal slope (by omega) inside.1 inside.2 j
  have cells (k : Nat) : stepped board q k = (Ply.along (vars q) none).cell board k := by
    rw [← typedStepped (diagonal none), typed none]
  have standing : get board (vars q).x1 (vars q).y1 = c.king := source
  have here (j : Option Nat) : (Ply.along (vars q) j).cell board 0 = c.king :=
    ownerAt standing (alongVars slope j)
  have length : (Ply.along (vars q) none).distance = n := dx
  obtain ⟨j, passage⟩ := kingPassage (here none)
    (fun i positive near => by rw [← cells]; exact between i positive (length ▸ near))
    (fun i k positive before near => by
      rw [← cells, ← cells]; exact one i k positive before (length ▸ near))
  refine ⟨Ply.along (vars q) j, typed j, diagonal j, ?_, passage, .inr ?_⟩
  · rw [← typedTarget, typed j]
    exact empty
  · exact Ownership.kingStands c (here j)

theorem legalMovePly (board : Board) (p : Colour) (q : Coordinates) :
    LegalMove board p q ↔ ∃ m : Ply, m.typed = q ∧ Legal board p.man m := by
  constructor
  · rintro ⟨onBoard, empty, man | ⟨c, n, king⟩⟩
    · exact plyOfManMove onBoard empty man
    · exact plyOfKingMove p.man onBoard empty king
  · rintro ⟨m, rfl, legal⟩
    exact legalMoveOfPly legal

theorem illegalMove : Illegal board p.man q ↔ ¬ LegalMove board p q := by
  rw [legalMovePly]
  exact ⟨fun illegal ⟨m, same, legal⟩ => illegal m same legal,
    fun never m same legal => never ⟨m, same, legal⟩⟩

end Complete

section Applied
variable {board : Board} {player : Byte} {m : Ply}

theorem betweenSquare (diagonal : Diagonal m) {i j : Fin 8} :
    Between m.typed ((i : Int) + 1) ((j : Int) + 1) ↔
      ∃ k, 0 < k ∧ k < m.distance ∧ (i : Int) = m.row k ∧ (j : Int) = m.column k := by
  have signs := typedSigns diagonal
  have length := (typedLength diagonal).1
  unfold Between
  rw [signs.1, signs.2, length]
  simp only [Ply.typed, Ply.row, Ply.column]
  constructor
  · rintro ⟨k, near, positive, row, column⟩
    exact ⟨k, positive, near, by omega, by omega⟩
  · rintro ⟨k, positive, near, row, column⟩
    exact ⟨k, near, positive, by omega, by omega⟩

theorem movedApplied (legal : Legal board player m) (i j : Fin 8) :
    m.result board i j =
      if (i : Int) = m.x ∧ (j : Int) = m.y then blank
      else if (i : Int) = m.row m.distance ∧ (j : Int) = m.column m.distance then
        crowned (m.cell board 0) (m.row m.distance)
      else if m.jumped.any (fun k => (i : Int) = m.row k ∧ (j : Int) = m.column k) then blank
      else board i j := by
  unfold Ply.result
  cases jumped : m.jumped with
  | none => simp only [Ply.moved, Grid.writeCell, Option.any_none, Bool.false_eq_true, if_false]
  | some k =>
    have near := (legal.passage.jump k jumped).2.1
    have apart := rowsApart legal.diagonal (Nat.ne_of_lt near)
    simp only [Ply.moved, Grid.writeCell, Option.any_some, decide_eq_true_eq]
    split
    · rename_i here
      have notTarget : ¬ ((i : Int) = m.row m.distance ∧ (j : Int) = m.column m.distance) :=
        fun landing => apart (here.1.symm.trans landing.1)
      rw [if_neg notTarget, ite_self]
    · rfl

theorem appliedResult (legal : Legal board player m) : applied board m.typed = m.result board := by
  funext i j
  rw [movedApplied legal]
  have source : (i : Int) + 1 = m.typed.x1 ∧ (j : Int) + 1 = m.typed.y1 ↔
      (i : Int) = m.x ∧ (j : Int) = m.y := by simp only [Ply.typed]; omega
  have target : (i : Int) + 1 = m.typed.x2 ∧ (j : Int) + 1 = m.typed.y2 ↔
      (i : Int) = m.row m.distance ∧ (j : Int) = m.column m.distance := by
    simp only [Ply.typed]; omega
  simp only [applied, source, target, typedSource]
  split
  · rfl
  · split
    · rename_i landing
      rw [landing.1]
    · split
      -- A square passed over: jumped, or blank already.
      · rename_i passed
        obtain ⟨k, positive, near, row, column⟩ := (betweenSquare legal.diagonal).mp passed
        split
        · rfl
        · rename_i kept
          have other : m.jumped ≠ some k := fun jumped =>
            kept ((Option.any_eq_true _ _).mpr ⟨k, jumped, decide_eq_true ⟨row, column⟩⟩)
          have empty := legal.passage.clear k positive near other
          rw [Ply.cell, ← row, ← column, Grid.getCell] at empty
          exact empty.symm
      · rename_i outside
        split
        · rename_i captured
          obtain ⟨k, jumped, here⟩ := (Option.any_eq_true _ _).mp captured
          obtain ⟨positive, near, _⟩ := legal.passage.jump k jumped
          exact absurd ((betweenSquare legal.diagonal).mpr
            ⟨k, positive, near, of_decide_eq_true here⟩) outside
        · rfl

end Applied

theorem openingLegal : LegalMove initializeBoard .x ⟨3,2,4,3⟩ where
  onBoard := by constructor <;> decide
  empty := by decide
  piece := .inl ⟨by decide, 1, by decide, by decide, .inl rfl⟩

/- Calls on what is typed from now on, which may never end. A call depends on the
quadruples it has read: it returns at the one that ends its wait. -/
abbrev Inputs := Stream'.Seq Coordinates

section Calls
variable {board : Board} {player : Byte} {p : Colour} {inputs : Inputs} {k : Nat} {t : Turn}

structure ReturnsAt (board : Board) (player : Byte) (inputs : Inputs) (k : Nat)
    (t : Turn) : Prop where
  waits : makeMove board player (inputs.take k) = .ok none
  returns : makeMove board player (inputs.take (k + 1)) = .ok (some t)

theorem makeMoveWaits {qs : List Coordinates} :
    makeMove board player qs = .ok none ↔ ∀ q ∈ qs, Illegal board player q := by
  constructor
  · intro waits
    rcases makeMoveVerdict board player qs with ⟨t, _, returns, _⟩ | ⟨_, illegal⟩
    · rw [waits] at returns
      cases returns
    · exact illegal
  · intro illegal
    rcases makeMoveVerdict board player qs with ⟨t, m, _, returned⟩ | ⟨waits, _⟩
    · obtain ⟨before, split, _⟩ := returned.split
      have member : t.typed ∈ qs := by simp [split]
      exact absurd returned.legal (illegal _ member m returned.typed.symm)
    · exact waits

theorem memberTake {q : Coordinates} : q ∈ inputs.take k ↔ ∃ l < k, inputs.get? l = some q := by
  constructor
  · intro member
    obtain ⟨l, found⟩ := List.mem_iff_getElem?.mp member
    rw [Stream'.Seq.getElem?_take] at found
    split at found
    · exact ⟨l, ‹_›, found⟩
    · cases found
  · rintro ⟨l, near, found⟩
    exact Stream'.Seq.get?_mem_take near found

theorem takeNext (inputs : Inputs) (k : Nat) :
    inputs.take (k + 1) = inputs.take k ++ (inputs.get? k).toList := by
  induction k generalizing inputs with
  | zero =>
    cases inputs using Stream'.Seq.recOn with
    | nil => simp
    | cons q rest => simp
  | succ k ih =>
    cases inputs using Stream'.Seq.recOn with
    | nil => simp
    | cons q rest => simp [ih rest]

theorem waitsAt : makeMove board player (inputs.take k) = .ok none ↔
    ∀ l < k, ∀ q, inputs.get? l = some q → Illegal board player q := by
  rw [makeMoveWaits]
  constructor
  · exact fun illegal l near q found => illegal q (memberTake.mpr ⟨l, near, found⟩)
  · intro illegal q member
    obtain ⟨l, near, found⟩ := memberTake.mp member
    exact illegal l near q found

theorem returnsPly : ReturnsAt board player inputs k t →
    ∃ m : Ply, Legal board player m ∧ inputs.get? k = some m.typed ∧ t.board = m.result board ∧
      t.typed = m.typed ∧ ∀ l < k, ∀ q, inputs.get? l = some q → Illegal board player q := by
  rintro ⟨waits, returns⟩
  obtain ⟨m, legal, result, typed, before, split, _⟩ := makeMoveReturned returns
  have early := waitsAt.mp waits
  have member : m.typed ∈ inputs.take (k + 1) := by rw [split, ← typed]; simp
  obtain ⟨l, near, found⟩ := memberTake.mp member
  have last : l = k := by
    by_contra other
    exact early l (by omega) m.typed found m rfl legal
  subst last
  exact ⟨m, legal, found, result, typed, early⟩

theorem plyReturns {m : Ply} (legal : Legal board player m) (found : inputs.get? k = some m.typed)
    (early : ∀ l < k, ∀ q, inputs.get? l = some q → Illegal board player q) :
    ∃ t, ReturnsAt board player inputs k t ∧ t.board = m.result board ∧ t.typed = m.typed := by
  have waits := waitsAt.mpr early
  obtain ⟨t, returns, result, typed, _⟩ := makeMoveLegal (makeMoveWaits.mp waits) legal []
  refine ⟨t, ⟨waits, ?_⟩, result, typed⟩
  rw [takeNext, found]
  exact returns

theorem returnsApplied {result : Board} :
    (∃ t, ReturnsAt board p.man inputs k t ∧ t.board = result) ↔
      (∃ q, inputs.get? k = some q ∧ LegalMove board p q ∧ result = applied board q) ∧
        ∀ l < k, ∀ q, inputs.get? l = some q → ¬ LegalMove board p q := by
  constructor
  · rintro ⟨t, returns, rfl⟩
    obtain ⟨m, legal, found, result, _, early⟩ := returnsPly returns
    refine ⟨⟨m.typed, found, legalMoveOfPly legal, result.trans (appliedResult legal).symm⟩, ?_⟩
    exact fun l near q here => illegalMove.mp (early l near q here)
  · rintro ⟨⟨q, found, legalMove, rfl⟩, early⟩
    obtain ⟨m, rfl, legal⟩ := (legalMovePly board p q).mp legalMove
    obtain ⟨t, returns, result, _⟩ := plyReturns legal found
      (fun l near q here => illegalMove.mpr (early l near q here))
    exact ⟨t, returns, result.trans (appliedResult legal).symm⟩

theorem firstLegal (legal : ∃ k q, inputs.get? k = some q ∧ LegalMove board p q) :
    ∃ k, (∃ q, inputs.get? k = some q ∧ LegalMove board p q) ∧
      ∀ l < k, ∀ q, inputs.get? l = some q → ¬ LegalMove board p q := by
  classical
  refine ⟨Nat.find legal, Nat.find_spec legal, fun l near q found move => ?_⟩
  exact Nat.find_min legal near ⟨q, found, move⟩

theorem makeMoveRule (board : Board) (p : Colour) (inputs : Inputs) :
    ((∃ k t, ReturnsAt board p.man inputs k t) ↔
      ∃ k q, inputs.get? k = some q ∧ LegalMove board p q) ∧
    ∀ k result, (∃ t, ReturnsAt board p.man inputs k t ∧ t.board = result) ↔
      (∃ q, inputs.get? k = some q ∧ LegalMove board p q ∧ result = applied board q) ∧
        ∀ l < k, ∀ q, inputs.get? l = some q → ¬ LegalMove board p q := by
  refine ⟨⟨?_, ?_⟩, fun k result => returnsApplied⟩
  · rintro ⟨k, t, returns⟩
    obtain ⟨⟨q, found, legal, _⟩, _⟩ := returnsApplied.mp ⟨t, returns, rfl⟩
    exact ⟨k, q, found, legal⟩
  · intro typed
    obtain ⟨k, ⟨q, found, legal⟩, early⟩ := firstLegal typed
    obtain ⟨t, returns, _⟩ := returnsApplied.mpr ⟨⟨q, found, legal, rfl⟩, early⟩
    exact ⟨k, t, returns⟩

end Calls
end Warcaby.Rulebook
