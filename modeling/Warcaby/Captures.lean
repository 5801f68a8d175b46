import Warcaby.Accounting
import Warcaby.Rulebook

/-! What a call can capture. A man jumps forwards only, no piece jumps over a king,
and a call ends with its first move, so it takes one piece at most: captures
backwards, captures of kings and captures in sequence are never accepted. -/
namespace Warcaby.Captures
open Grid (Inside get write)
open MakeMove Rule Turn Rulebook

structure ManJump (board : Board) (p : Colour) (prey : Byte) (m : Ply) : Prop where
  diagonal : Diagonal m
  two : m.distance = 2
  jumped : m.jumped = some 1
  man : m.cell board 0 = p.man
  prey : m.cell board 1 = prey
  behind : m.cell board 2 = blank

instance (board p prey m) : Decidable (ManJump board p prey m) :=
  decidable_of_iff (Diagonal m ∧ m.distance = 2 ∧ m.jumped = some 1 ∧ m.cell board 0 = p.man ∧
      m.cell board 1 = prey ∧ m.cell board 2 = blank)
    ⟨fun ⟨diagonal, two, jumped, man, prey, behind⟩ => ⟨diagonal, two, jumped, man, prey, behind⟩,
      fun ⟨diagonal, two, jumped, man, prey, behind⟩ => ⟨diagonal, two, jumped, man, prey, behind⟩⟩

/- A man of `p` with an enemy king next to it and ahead, or a king of `p` with an enemy
king on one of its diagonals, all squares up to it and the one right behind it blank. -/
structure FacesKing (board : Board) (p : Colour) (m : Ply) : Prop where
  diagonal : Diagonal m
  far : 2 ≤ m.distance
  reached : ∀ k, 0 < k → k + 1 < m.distance → m.cell board k = blank
  king : m.cell board (m.distance - 1) = p.other.king
  behind : m.cell board m.distance = blank
  piece : m.cell board 0 = p.man ∧ m.dirX = p.forward ∧ m.distance = 2 ∨ m.cell board 0 = p.king

section Jumps
variable {board : Board} {p : Colour} {m n : Ply}

theorem manJumpLegal (jump : ManJump board p p.other.man m) (forward : m.dirX = p.forward) :
    Legal board p.man m := by
  obtain ⟨diagonal, two, middle, man, prey, behind⟩ := jump
  have passage : Passage board m := middlePassage two middle (by rw [man, foeOfColour]; exact prey)
  have empty : m.cell board m.distance = blank := by rw [two]; exact behind
  exact ⟨diagonal, empty, passage, .inl ⟨p, rfl, man, forward, .inr ⟨two, middle⟩⟩⟩

theorem acceptedSame {t : MakeMove.Turn} {inputs : List Coordinates}
    (returns : makeMove board p.man inputs = .ok (some t)) (typed : t.typed = m.typed)
    (diagonal : Diagonal m) : ∃ j, Legal board p.man (m.jumping j) := by
  obtain ⟨n, returned⟩ := makeMoveReturned returns
  have same := sameDiagonal diagonal returned.legal.diagonal (returned.typed.symm.trans typed)
  exact ⟨n.jumped, same ▸ returned.legal⟩

theorem jumpsForward (jump : ManJump board p p.other.man m) :
    (∃ t, makeMove board p.man [m.typed] = .ok (some t) ∧ t.board = applied board m.typed) ↔
      m.dirX = p.forward := by
  constructor
  · rintro ⟨t, returns, _⟩
    have typed : t.typed = m.typed := by
      obtain ⟨n, returned⟩ := makeMoveReturned returns
      obtain ⟨before, split, _⟩ := returned.split
      have member : t.typed ∈ [m.typed] := by rw [split]; simp
      exact List.mem_singleton.mp member
    obtain ⟨j, legal⟩ := acceptedSame returns typed jump.diagonal
    have man : (m.jumping j).cell board 0 = p.man := jump.man
    exact (manMover legal man).1
  · intro forward
    have legal := manJumpLegal jump forward
    obtain ⟨t, returns, result, _⟩ := makeMoveFirst legal []
    exact ⟨t, returns, result.trans (appliedResult legal).symm⟩

def manAhead : Board := write (write (fun _ _ => blank) 3 2 charX) 4 3 charO

theorem manAheadJumped : ∃ t, makeMove manAhead charX [⟨4,3,6,5⟩] = .ok (some t) ∧
    t.board = applied manAhead ⟨4,3,6,5⟩ :=
  (jumpsForward (m := ⟨3,2,1,1,2,some 1⟩) (p := .x) (by decide)).mpr rfl

def manBehind : Board := write (write (fun _ _ => blank) 4 3 charX) 3 2 charO

theorem manBehindRefused : WellFormed manBehind ∧
    ManJump manBehind .x charO ⟨4,3,-1,-1,2,some 1⟩ ∧
    makeMove manBehind charX [⟨5,4,3,2⟩] = .ok none :=
  ⟨by decide, by decide, rfl⟩

theorem kingNotFoe (p : Colour) (piece : Byte) : p.king ≠ foe piece := by
  unfold foe
  split <;> cases p <;> decide

theorem kingNotJumped (faces : FacesKing board p m) (player : Byte) (j : Option Nat) :
    ¬ Legal board player (m.jumping j) := by
  intro legal
  have passage : Passage board (m.jumping j) := legal.passage
  have far := faces.far
  have occupied : m.cell board (m.distance - 1) ≠ blank := by
    rw [faces.king]
    exact p.other.kingNotBlank
  have jumped := (occupiedJumped passage (k := m.distance - 1) (by omega) (by omega) occupied).2
  rw [faces.king] at jumped
  exact kingNotFoe _ _ jumped

theorem kingsImmune (faces : FacesKing board p m) :
    ¬ ∃ inputs t, makeMove board p.man inputs = .ok (some t) ∧ t.typed = m.typed := by
  rintro ⟨inputs, t, returns, typed⟩
  obtain ⟨j, legal⟩ := acceptedSame returns typed faces.diagonal
  exact kingNotJumped faces p.man j legal

def kingsCrossed : Board := write (write (fun _ _ => blank) 2 1 charD) 4 3 charQ

theorem crossedImmune : ¬ ∃ inputs t,
    makeMove kingsCrossed charX inputs = .ok (some t) ∧ t.typed = ⟨3,2,6,5⟩ := by
  refine kingsImmune (m := ⟨2,1,1,1,3,none⟩) (p := .x)
    ⟨by decide, by decide, fun k positive near => ?_, by decide, by decide, .inr rfl⟩
  have one : k = 1 := by
    change k + 1 < 3 at near
    omega
  rw [one]
  rfl

def kingAhead : Board := write (write (fun _ _ => blank) 3 2 charX) 4 3 charQ

theorem kingAheadRefused : WellFormed kingAhead ∧ FacesKing kingAhead .x ⟨3,2,1,1,2,some 1⟩ ∧
    makeMove kingAhead charX [⟨4,3,6,5⟩] = .ok none := by
  refine ⟨by decide, ⟨by decide, by decide, fun k positive near => ?_, by decide, by decide,
    .inl ⟨rfl, rfl, rfl⟩⟩, rfl⟩
  change k + 1 < 2 at near
  omega

end Jumps

section Sequence
variable {board : Board} {p : Colour} {m n : Ply}

/- Jumps that one man of `p` could make one after another, each over a man ahead. -/
inductive Chain (p : Colour) : Board → List Ply → Prop where
  | last {board : Board} {m : Ply} (jump : ManJump board p p.other.man m)
      (forward : m.dirX = p.forward) : Chain p board [m]
  | next {board : Board} {m n : Ply} {ms : List Ply} (jump : ManJump board p p.other.man m)
      (forward : m.dirX = p.forward) (goesOn : n.x = m.row 2 ∧ n.y = m.column 2)
      (rest : Chain p (m.result board) (n :: ms)) : Chain p board (m :: n :: ms)

theorem chainHead {ms : List Ply} (chain : Chain p board (m :: ms)) :
    ManJump board p p.other.man m ∧ m.dirX = p.forward := by
  cases chain with
  | last jump forward => exact ⟨jump, forward⟩
  | next jump forward _ _ => exact ⟨jump, forward⟩

theorem takenOnce {inputs : List Coordinates} {t : MakeMove.Turn}
    (returns : makeMove board p.man inputs = .ok (some t)) {i j r s : Fin 8}
    (first : board i j = p.other.man) (second : board r s = p.other.man)
    (firstTaken : t.board i j = blank) (secondTaken : t.board r s = blank) : i = r ∧ j = s := by
  obtain ⟨m, returned⟩ := makeMoveReturned returns
  have taken : ∀ {a b : Fin 8}, board a b = p.other.man → t.board a b = blank →
      ∃ k, m.jumped = some k ∧ (a : Int) = m.row k ∧ (b : Int) = m.column k := by
    intro a b man empty
    rw [returned.result] at empty
    have occupied : board a b ≠ blank := by
      rw [man]
      exact p.other.manNotBlank
    rcases Accounting.emptied returned.legal occupied empty with ⟨row, column⟩ | jumped
    · have here : m.cell board 0 = p.other.man := by
        rw [Ply.cell, Ply.rowZero, Ply.columnZero, ← row, ← column, Grid.getCell]
        exact man
      rcases returned.legal.mover with ⟨c, player, own, _⟩ | king
      · rw [here, ← player] at own
        exact absurd (Colour.manUnique own) p.otherApart
      · unfold KingStep at king
        rw [here] at king
        exact absurd king p.other.manNoKing
    · exact jumped
  obtain ⟨k, jumped, row, column⟩ := taken first firstTaken
  obtain ⟨l, again, row', column'⟩ := taken second secondTaken
  have same : k = l := Option.some.inj (jumped.symm.trans again)
  subst same
  exact ⟨Fin.ext (by omega), Fin.ext (by omega)⟩

theorem secondStands (jump : ManJump board p p.other.man m) (forward : m.dirX = p.forward)
    (goesOn : n.x = m.row 2 ∧ n.y = m.column 2)
    (later : ManJump (m.result board) p p.other.man n) (ahead : n.dirX = p.forward) :
    n.cell board 1 = p.other.man ∧ n.row 1 ≠ m.row 1 := by
  refine ⟨?_, ?_⟩
  · obtain ⟨i, j, row, column⟩ := Grid.insideIndices
      (diagonalInside later.diagonal (k := 1) (by rw [later.two]; decide))
    have prey := later.prey
    rw [Ply.cell, row, column, Grid.getCell] at prey ⊢
    rcases resultCases m board i j with empty | ⟨_, _, landed⟩ | kept
    · exact absurd (prey.symm.trans empty) p.other.manNotBlank
    · rw [landed, jump.man] at prey
      have owner := crownedOwner p.other p.man (m.row m.distance)
      rw [prey] at owner
      cases p <;> exact absurd owner (by decide)
    · exact kept.symm.trans prey
  · simp only [Ply.row, goesOn.1, ahead, forward]
    cases p <;> simp only [Colour.forward] <;> omega

theorem sequenceNeverTaken {ms : List Ply} (chain : Chain p board ms) (several : 2 ≤ ms.length) :
    ¬ ∃ inputs t, makeMove board p.man inputs = .ok (some t) ∧
      ∀ m ∈ ms, get t.board (m.row 1) (m.column 1) = blank := by
  rintro ⟨inputs, t, returns, taken⟩
  cases chain with
  | last =>
    rw [List.length_singleton] at several
    omega
  | @next _ m n ms jump forward goesOn rest =>
    obtain ⟨later, ahead⟩ := chainHead rest
    obtain ⟨second, apart⟩ := secondStands jump forward goesOn later ahead
    have first := jump.prey
    have one := taken m List.mem_cons_self
    have two := taken n (by simp)
    obtain ⟨i, j, row, column⟩ := Grid.insideIndices
      (diagonalInside jump.diagonal (k := 1) (by rw [jump.two]; decide))
    obtain ⟨r, s, row', column'⟩ := Grid.insideIndices
      (diagonalInside later.diagonal (k := 1) (by rw [later.two]; decide))
    rw [Ply.cell, row, column, Grid.getCell] at first
    rw [Ply.cell, row', column', Grid.getCell] at second
    rw [row, column, Grid.getCell] at one
    rw [row', column', Grid.getCell] at two
    obtain ⟨same, _⟩ := takenOnce returns first second one two
    rw [row, row', same] at apart
    exact apart rfl

def inARow : Board :=
  write (write (write (fun _ _ => blank) 1 0 charX) 2 1 charO) 4 3 charO

def inARowOfO : Board :=
  write (write (write (fun _ _ => blank) 6 1 charO) 5 2 charX) 3 4 charX

theorem inARowOfONeverTaken : ¬ ∃ inputs t, makeMove inARowOfO charO inputs = .ok (some t) ∧
    ∀ m ∈ [Ply.mk 6 1 (-1) 1 2 (some 1),Ply.mk 4 3 (-1) 1 2 (some 1)],
      get t.board (m.row 1) (m.column 1) = blank :=
  sequenceNeverTaken (p := .o)
    (.next (by decide) rfl (by decide) (.last (by decide) rfl)) (by decide)

theorem inARowNeverTaken : WellFormed inARow ∧
    Chain .x inARow [Ply.mk 1 0 1 1 2 (some 1),Ply.mk 3 2 1 1 2 (some 1)] ∧
    ¬ ∃ inputs t, makeMove inARow charX inputs = .ok (some t) ∧
      get t.board 2 1 = blank ∧ get t.board 4 3 = blank := by
  refine ⟨by decide, .next (by decide) rfl (by decide) (.last (by decide) rfl), ?_⟩
  rintro ⟨inputs, t, returns, first, second⟩
  have same := takenOnce (p := .x) (i := 2) (j := 1) (r := 4) (s := 3) returns rfl rfl first second
  exact absurd same.1 (by decide)

end Sequence
end Warcaby.Captures
