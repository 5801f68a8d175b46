import Warcaby.Agreement
import Warcaby.Progress
import Warcaby.Session

/-! Games of the earlier version. A man on its last row stays a man and stays there, so
every game comes to its end: somebody is asked who has no move, and the call of
`make_move` never returns. -/
namespace Warcaby.EarlierGames
open MakeMove (Coordinates)
open Agreement Outcome
open Progress (distanceLeft rowsLeft)
open Rulebook (LegalMove square)
open Server (Client)
open Session (assigned)
open Transition (Machine Run Steps)

def alternating (randNum : Nat) : Machine (Board × Client) Earlier.Call where
  start game := game = (initializeBoard,.one)
  step game call next := call.colour = assigned randNum game.2 ∧ call.before = game.1 ∧
    call.Returns ∧ next = (call.turn.board,game.2.other)

section Calls
variable {board old : Board} {p : Colour} {x y : Int} {qs : List Coordinates} {u : Earlier.Turn}

theorem crownedDistance (inside : Grid.Inside 8 8 x y) (landed : Grid.get old x y = p.man) :
    distanceLeft (crownedAt old p x y) = distanceLeft old := by
  unfold crownedAt
  split
  · rename_i last
    have totals := Grid.totalWrite rowsLeft old inside p.king
    have arrived : rowsLeft x y p.man = 0 := by
      rw [Progress.rowsLeftMan, last]
      simp
    rw [landed, arrived, Progress.rowsLeftKing] at totals
    unfold distanceLeft
    omega
  · rfl

theorem crownedMen (inside : Grid.Inside 8 8 x y) (landed : Grid.get old x y = p.man)
    (others : ∀ i j : Fin 8, ¬ ((i : Int) = x ∧ (j : Int) = y) →
      crownedAt old p x y i j = blank ∨ crownedAt old p x y i j = charX ∨ crownedAt old p x y i j = charO) :
    MenOnly old := by
  intro i j
  by_cases target : (i : Int) = x ∧ (j : Int) = y
  · obtain ⟨rfl, rfl⟩ := target
    rw [Grid.getCell] at landed
    rw [landed]
    exact .inr p.manLetter
  · have cell := others i j target
    unfold crownedAt at cell
    split at cell
    · rw [Grid.writeCell, if_neg target] at cell
      exact cell
    · exact cell

theorem manMoves {t : MakeMove.Turn} {m : Rule.Ply} (men : MenOnly board)
    (returned : Turn.Returned board p.man qs t m) : Progress.MovesMan board t := by
  obtain ⟨i, j, _, _, here⟩ := Play.moverCell returned.legal
  unfold Progress.MovesMan
  rw [Accounting.movedCell returned]
  rcases returned.legal.mover with ⟨c, _, man, _⟩ | king
  · rw [man]
    exact c.manLetter
  · unfold Rule.KingStep at king
    rw [here] at king
    rcases men i j with cell | cell | cell <;> rw [cell] at king <;> exact absurd king (by decide)

theorem earlierAdvances (men : MenOnly board)
    (returns : Earlier.makeMove board p.man qs = .ok (some u)) :
    MenOnly u.board ∧ distanceLeft u.board + 1 ≤ distanceLeft board := by
  obtain ⟨t, returns', same⟩ := stopsCurrent men returns
  obtain ⟨m, returned⟩ := Turn.makeMoveReturned returns'
  have typed : u.typed = m.typed := same.typed.symm.trans returned.typed
  have row : u.typed.x2 - 1 = m.row m.distance := by
    rw [typed]
    simp [Rule.Ply.typed]
  have column : u.typed.y2 - 1 = m.column m.distance := by
    rw [typed]
    simp [Rule.Ply.typed]
  have landed := same.landed
  have crown := same.board
  rw [square, row, column] at landed
  rw [row, column] at crown
  have inside := returned.legal.diagonal.target
  constructor
  · refine crownedMen inside landed fun i j apart => ?_
    rw [← crown, returned.result]
    rcases Rule.resultCases m board i j with empty | ⟨here, there, _⟩ | kept
    · exact .inl empty
    · exact absurd ⟨here, there⟩ apart
    · rw [kept]
      exact men i j
  · have advances := Progress.callAdvances returns'
    have man := manMoves men returned
    rw [if_pos man, crown, crownedDistance inside landed] at advances
    exact advances

theorem earlierNoFault (men : MenOnly board) (p : Colour) (qs : List Coordinates) :
    ∃ out, Earlier.makeMove board p.man qs = .ok out := by
  obtain ⟨out, happens⟩ := Turn.makeMoveNoFault board p.man qs
  have agrees := makeMoveAgrees men p qs
  rw [happens] at agrees
  obtain ⟨out', happens', _⟩ := relatedLeft agrees
  exact ⟨out', happens'⟩

end Calls

section Games
variable {randNum : Nat} {game next last : Board × Client} {call : Earlier.Call}
  {calls more : List Earlier.Call}

theorem stepAdvances (men : MenOnly game.1) (step : (alternating randNum).step game call next) :
    MenOnly next.1 ∧ distanceLeft next.1 + 1 ≤ distanceLeft game.1 := by
  obtain ⟨_, before, returns, rfl⟩ := step
  rw [← before] at men ⊢
  exact earlierAdvances men returns

theorem stepsAdvance (men : MenOnly game.1) (steps : Steps (alternating randNum) game more last) :
    MenOnly last.1 ∧ more.length + distanceLeft last.1 ≤ distanceLeft game.1 := by
  induction steps with
  | nil => exact ⟨men, by simp⟩
  | cons step _ ih =>
    obtain ⟨men', nearer⟩ := stepAdvances men step
    obtain ⟨men'', further⟩ := ih men'
    refine ⟨men'', ?_⟩
    rw [List.length_cons]
    omega

theorem earlierEnds (randNum : Nat) (calls : List Earlier.Call) (game : Board × Client)
    (run : Run (alternating randNum) calls game) :
    calls.length + distanceLeft game.1 ≤ 144 ∧
    (∀ more last, Steps (alternating randNum) game more last → more.length ≤ distanceLeft game.1) ∧
    ∃ more last, Steps (alternating randNum) game more last ∧
      ∀ qs, Earlier.makeMove last.1 (assigned randNum last.2).man qs = .ok none := by
  obtain ⟨first, begins, steps⟩ := Transition.runFrom run
  obtain rfl : first = (initializeBoard,.one) := begins
  obtain ⟨men, played⟩ := stepsAdvance initialMen steps
  rw [Progress.initialDistance] at played
  have bounded : ∀ more last, Steps (alternating randNum) game more last →
      more.length ≤ distanceLeft game.1 := by
    intro more last steps
    have advances := (stepsAdvance men steps).2
    omega
  refine ⟨played, bounded, ?_⟩
  have allowed : ∀ more last, Steps (alternating randNum) game more last →
      (∀ call ∈ more, True) → more.length ≤ distanceLeft game.1 :=
    fun more last steps _ => bounded more last steps
  obtain ⟨more, last, steps', _, rests⟩ := Transition.boundedRest allowed
  refine ⟨more, last, steps', fun qs => ?_⟩
  have men' := (stepsAdvance men steps').1
  obtain ⟨out, happens⟩ := earlierNoFault men' (assigned randNum last.2) qs
  cases out with
  | none => exact happens
  | some u =>
    refine absurd ?_ (rests ⟨assigned randNum last.2,last.1,qs,u⟩ (u.board,last.2.other) trivial)
    exact ⟨rfl, rfl, happens, rfl⟩

theorem openingRun : Run (alternating 0) [openingCall] (openingCall.turn.board,.two) :=
  .step (.start rfl) ⟨rfl, rfl, rfl, rfl⟩

theorem earlierEndsOpening : ∃ calls game, Run (alternating 0) calls game ∧ calls ≠ [] ∧
    calls.length + distanceLeft game.1 ≤ 144 ∧
    (∀ more last, Steps (alternating 0) game more last → more.length ≤ distanceLeft game.1) ∧
    ∃ more last, Steps (alternating 0) game more last ∧
      ∀ qs, Earlier.makeMove last.1 (assigned 0 last.2).man qs = .ok none :=
  ⟨[openingCall], _, openingRun, List.cons_ne_nil _ _, earlierEnds 0 _ _ openingRun⟩

end Games
end Warcaby.EarlierGames
