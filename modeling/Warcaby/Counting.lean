import Warcaby.Accounting

/-! What `check_pieces_left` tells. It counts one letter, that of the man, so it follows
the captures exactly as long as no man is crowned, and it tells whether a side has
pieces left as long as that side is not down to its kings. -/
namespace Warcaby.Counting
open MakeMove Rule Turn
open Accounting (Jumped moved movedCell jumpedSquare)

structure Counts (before : Board) (p : Colour) (t : MakeMove.Turn) : Prop where
  other : checkPiecesLeft t.board p.other.man + (if Jumped p.other before t then 1 else 0) =
    checkPiecesLeft before p.other.man
  own : checkPiecesLeft t.board p.man = checkPiecesLeft before p.man

def Crowns (board : Board) (p : Colour) (m : Ply) : Prop :=
  m.cell board 0 = p.man ∧ m.row m.distance = p.lastRow

instance (board p m) : Decidable (Crowns board p m) := by unfold Crowns; infer_instance

def KingsOnly (board : Board) (c : Colour) : Prop :=
  (∀ i j, board i j ≠ c.man) ∧ ∃ i j, board i j = c.king

def letter (a : Byte) (_ _ : Int) (cell : Byte) : Nat := if cell == a then 1 else 0

section Ply
variable {board : Board} {player : Byte} {m : Ply} {p c : Colour}

theorem countLetters (board : Board) (a : Byte) :
    checkPiecesLeft board a = Grid.total (letter a) board := checkPiecesLeftCount board a

theorem letterBlank (c : Colour) (x y : Int) : letter c.man x y blank = 0 := by
  cases c <;> rfl

theorem letterMan (c d : Colour) (x y : Int) : letter c.man x y d.man = if c = d then 1 else 0 := by
  cases c <;> cases d <;> rfl

theorem letterKing (c d : Colour) (x y : Int) : letter c.man x y d.king = 0 := by
  cases c <;> cases d <;> rfl

theorem resultLetters (legal : Legal board player m) (c : Colour) :
    checkPiecesLeft (m.result board) c.man + letter c.man m.x m.y (m.cell board 0) +
        jumpedWeight (letter c.man) m board =
      checkPiecesLeft board c.man + letter c.man (m.row m.distance) (m.column m.distance)
        (crowned (m.cell board 0) (m.row m.distance)) := by
  rw [countLetters, countLetters]
  exact resultTotal legal.diagonal legal.empty legal.passage (letterBlank c)

theorem jumpedLetter (legal : Legal board player m) (own : p.owns (m.cell board 0) = true)
    (c : Colour) : jumpedWeight (letter c.man) m board =
      if c = p.other ∧ m.jumped.isSome then 1 else 0 := by
  unfold jumpedWeight
  cases jumped : m.jumped with
  | none => simp
  | some k =>
    have prey := (legal.passage.jump k jumped).2.2
    rw [Accounting.foeOwner own] at prey
    dsimp only
    rw [prey, letterMan]
    simp

theorem jumpedEnemy {t : MakeMove.Turn} (legal : Legal board player m)
    (own : p.owns (m.cell board 0) = true) (result : t.board = m.result board)
    (typed : t.typed = m.typed) : Jumped p.other board t ↔ m.jumped.isSome := by
  rw [jumpedSquare legal result typed]
  constructor
  · rintro ⟨k, jumped, _⟩
    rw [jumped]
    rfl
  · intro some
    obtain ⟨k, jumped⟩ := Option.isSome_iff_exists.mp some
    have prey := (legal.passage.jump k jumped).2.2
    rw [Accounting.foeOwner own] at prey
    exact ⟨k, jumped, by rw [prey]; exact p.other.ownsMan⟩

/- The letter of the moved piece, before and after: it is lost where a man is crowned. -/
theorem letterMoved (own : p.owns (m.cell board 0) = true) (c : Colour) :
    letter c.man (m.row m.distance) (m.column m.distance)
        (crowned (m.cell board 0) (m.row m.distance)) + (if c = p ∧ Crowns board p m then 1 else 0) =
      letter c.man m.x m.y (m.cell board 0) := by
  rcases Colour.ownsPiece.mp own with man | king
  · have crowns : Crowns board p m ↔ m.row m.distance = p.lastRow :=
      ⟨fun both => both.2, fun last => ⟨man, last⟩⟩
    rw [man, crownedMan, letterMan]
    by_cases last : m.row m.distance = p.lastRow
    · rw [if_pos last, letterKing]
      simp [crowns, last]
    · rw [if_neg last, letterMan]
      simp [crowns, last]
  · have noMan : ¬ Crowns board p m := by
      intro crowns
      exact p.kingNotMan p (king.symm.trans crowns.1)
    have still : crowned p.king (m.row m.distance) = p.king := crownedKing p.kingLetter _
    rw [king, still, letterKing, letterKing]
    simp [noMan]

theorem countsCrowned {t : MakeMove.Turn} (legal : Legal board player m)
    (own : p.owns (m.cell board 0) = true) (result : t.board = m.result board)
    (typed : t.typed = m.typed) : Counts board p t ↔ ¬ Crowns board p m := by
  have letters (c : Colour) := resultLetters legal c
  simp only [jumpedLetter legal own, ← letterMoved own, ← result] at letters
  have enemy := jumpedEnemy legal own result typed
  have foreign : p.other ≠ p := p.otherApart
  have others := letters p.other
  have mine := letters p
  simp only [foreign, foreign.symm, false_and, true_and, if_false] at others mine
  simp only [← enemy] at others
  constructor
  · rintro ⟨_, kept⟩ crowns
    rw [if_pos crowns] at mine
    omega
  · intro never
    rw [if_neg never] at mine
    exact ⟨by omega, by omega⟩

end Ply

def CrownsFirst (board : Board) (p : Colour) (inputs : List Coordinates) : Prop :=
  FirstLegal board p.man inputs (Crowns board p)

theorem callCounts {board : Board} {p : Colour} {inputs : List Coordinates} :
    (∀ t, makeMove board p.man inputs = .ok (some t) →
      p.owns (moved board t) = true → Counts board p t) ↔ ¬ CrownsFirst board p inputs := by
  refine callLaw (fun t m returned => ?_)
  rw [movedCell returned]
  constructor
  · intro counts crowns
    have own : p.owns (m.cell board 0) = true := by rw [crowns.1]; exact p.ownsMan
    exact (countsCrowned returned.legal own returned.result returned.typed).mp (counts own) crowns
  · intro never own
    exact (countsCrowned returned.legal own returned.result returned.typed).mpr never

theorem countZero (board : Board) (c : Colour) :
    checkPiecesLeft board c.man = 0 ↔ ∀ i j, board i j ≠ c.man := by
  rw [checkPiecesLeftCount, Grid.countZero]
  simp

theorem counting (board : Board) :
    (∀ p inputs, (∀ t, makeMove board p.man inputs = .ok (some t) →
      p.owns (moved board t) = true → Counts board p t) ↔ ¬ CrownsFirst board p inputs) ∧
    ∀ c : Colour, (checkPiecesLeft board c.man = 0 ↔ ∀ i j, c.owns (board i j) = false) ↔
      ¬ KingsOnly board c := by
  refine ⟨fun p inputs => callCounts, fun c => ?_⟩
  rw [countZero]
  constructor
  · rintro law ⟨noMan, i, j, king⟩
    have unowned := law.mp noMan i j
    rw [king, Colour.ownsKing] at unowned
    cases unowned
  · intro some
    refine ⟨fun noMan i j => ?_, fun unowned i j man => ?_⟩
    · by_contra own
      rcases Colour.ownsPiece.mp (Bool.eq_true_of_not_eq_false own) with man | king
      · exact noMan i j man
      · exact some ⟨noMan, i, j, king⟩
    · have mine := unowned i j
      rw [man, Colour.ownsMan] at mine
      cases mine

def lastStep : Board := Grid.write (Grid.write (fun _ _ => blank) 6 1 charX) 3 2 charO

theorem crownedNotCounted : WellFormed lastStep ∧
    ∃ t, makeMove lastStep charX [⟨7,2,8,3⟩] = .ok (some t) ∧
      Colour.x.owns (moved lastStep t) = true ∧ ¬ Jumped .o lastStep t ∧
      checkPiecesLeft lastStep charX = 1 ∧ checkPiecesLeft t.board charX = 0 ∧
      t.board 7 2 = charD :=
  ⟨by decide, _, rfl, by decide, by decide, by decide, by decide, rfl⟩

end Warcaby.Counting
