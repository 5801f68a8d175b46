import Warcaby.Accounting
import Warcaby.Token

/-! What the players see: one game on one board, whatever the order of steps, and no
decoding failure in either program. -/
namespace Warcaby.SharedBoard
open MakeMove Session Token
open Server (Client choosePlayersPawns)
open Transition (Run)

inductive Failed (s : State) : Prop where
  | serverExited (phase : s.server.phase = .exited)
  | serverUndefined (fault) (phase : s.server.phase = .undefined fault)
  | klientExited (c) (phase : (s.klient c).phase = .exited)
  | klientUndefined (c fault) (phase : (s.klient c).phase = .undefined fault)

section Reachable
variable {randNum : Nat} {place : Place} {board : Board} {s : State} {c : Client}

theorem showsNotFailed {colour : Byte} {k : Klient.State} {stage : Option Stage}
    {down up : List Byte} (shows' : Shows colour board k stage down up) :
    k.phase ≠ .exited ∧ ∀ fault, k.phase ≠ .undefined fault := by
  rcases showsCases shows' with (phase | phase) | ⟨_, typed, phase⟩ | ⟨_, phase⟩ <;> simp [phase]

theorem showsMoving {colour : Byte} {k : Klient.State} {stage : Option Stage} {down up : List Byte}
    {typed : List Coordinates} (shows' : Shows colour board k stage down up)
    (moving : k.phase = .moving typed) : stage = some .thinking ∧ k.board = board := by
  rcases showsCases shows' with (phase | phase) | ⟨rfl, _⟩ | ⟨_, phase⟩
  · rw [moving] at phase; cases phase
  · rw [moving] at phase; cases phase
  · cases shows' with
    | thinking _ _ _ held => exact ⟨rfl, held⟩
  · rw [moving] at phase; cases phase

theorem phaseRunning (place : Place) :
    place.phase ≠ .exited ∧ ∀ fault, place.phase ≠ .undefined fault := by
  cases place with
  | colours c => simp [Place.phase]
  | turn c stage => cases stage <;> simp [Place.phase]

theorem holdsNotFailed (holds : Holds randNum place board s) : ¬ Failed s := by
  intro failed
  cases failed with
  | serverExited exited => exact (phaseRunning place).1 (holds.phase.symm.trans exited)
  | serverUndefined fault undefined =>
    exact (phaseRunning place).2 fault (holds.phase.symm.trans undefined)
  | klientExited c exited => exact (showsNotFailed (holds.shown c)).1 exited
  | klientUndefined c fault undefined => exact (showsNotFailed (holds.shown c)).2 fault undefined

theorem movingTurn {typed : List Coordinates} (holds : Holds randNum place board s)
    (moving : (s.klient c).phase = .moving typed) :
    (s.klient c).board = board ∧ c = place.toMove := by
  obtain ⟨thinking, held⟩ := showsMoving (holds.shown c) moving
  obtain rfl := activeStage thinking (by decide)
  exact ⟨held, rfl⟩

end Reachable

theorem centralisedMove {randNum : Nat} {done before after : List Move} {m : Move}
    {game : Board × Client} (run : Run (centralised randNum) done game)
    (split : done = before ++ m :: after) : m.before = latest before ∧ m.client = toMove before := by
  obtain ⟨earlier, later, run', client, board, _⟩ := Transition.runSplit run split
  obtain rfl := centralisedState run'
  exact ⟨board, client⟩

theorem sharedBoard {randNum : Nat} {labels : List (Action × List Move)} {s : State}
    (run : Run (distributed randNum) labels s) :
    (∃ game, Run (centralised randNum) (moves labels) game) ∧
    (∀ before m after, moves labels = before ++ m :: after →
      m.before = latest before ∧ m.client = toMove before) ∧
    (∀ c typed, (s.klient c).phase = .moving typed →
      (s.klient c).board = latest (moves labels) ∧ c = toMove (moves labels)) ∧
    ¬ Failed s := by
  obtain ⟨place, run', holds, mover⟩ := reachableHolds run
  refine ⟨⟨_, run'⟩, ?_, ?_, holdsNotFailed holds⟩
  · intro before m after split
    exact centralisedMove run' split
  · intro c typed moving
    rw [mover]
    exact movingTurn holds moving

section Network
variable {randNum : Nat} {labels : List (Action × List Move)} {s : State}

theorem networkGame (run : Run (distributed randNum) labels s) :
    Run Play.play ((moves labels).map (call randNum)) (latest (moves labels)) := by
  obtain ⟨_, run', _, _⟩ := reachableHolds run
  exact centralisedGame run'

theorem networkWellFormed (run : Run (distributed randNum) labels s) :
    WellFormed (latest (moves labels)) := Play.reachableWellFormed ⟨_, networkGame run⟩

theorem networkPieces (run : Run (distributed randNum) labels s) (c : Colour) :
    Accounting.pieces c (latest (moves labels)) +
      Accounting.captured c ((moves labels).map (call randNum)) = 12 :=
  Accounting.gamePieces (networkGame run) c

end Network

def openingActions : List Action :=
  [.serverSends,.serverSends,.receives .one,.serverSends,.receives .one,.types .one ⟨3,2,4,3⟩]

def exchange (c : Client) (typed : List Coordinates) : List Action :=
  [.serverSends,.receives c] ++ typed.map (.types c) ++ [.sends c,.serverReceives]

def exchanges (script : List (Client × List Coordinates)) : List Action :=
  [.serverSends,.serverSends,.receives .one,.receives .two] ++
    script.flatMap (fun turn => exchange turn.1 turn.2)

def crowningScript : List (Client × List Coordinates) :=
  Play.crowningScript.map (fun turn => (if turn.1 = .x then .one else .two,turn.2))

theorem sharedBoardCrowned : ∃ labels s, Run (distributed 0) labels s ∧
    (moves labels).length = 10 ∧ (∃ game, Run (centralised 0) (moves labels) game) ∧
    (∀ before m after, moves labels = before ++ m :: after → m.before = latest before) ∧
    ¬ Failed s := by
  obtain ⟨labels, s, run, ten⟩ := playedRun (fun labels _ => (moves labels).length)
    (exchanges crowningScript) 10 (by decide +kernel)
  obtain ⟨game, order, _, fine⟩ := sharedBoard run
  exact ⟨labels, s, run, ten, game, fun before m after split => (order before m after split).1, fine⟩

end Warcaby.SharedBoard
