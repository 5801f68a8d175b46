import Warcaby.Turn
import Warcaby.Wire

/-! `main` of `client.c` once it is connected, one `recv`, `scanf` or `send` at a
time. `player_char`, the board and the buffer hold anything before they are set. -/
namespace Warcaby.Klient
open ByteStream Tlv Wire MakeMove

inductive Phase where
  | colour
  | receiving
  | moving (typed : List Coordinates)
  | sending
  | exited
  | undefined (fault : Fault)
  deriving DecidableEq, Repr

structure State where
  phase : Phase
  board : Board
  playerChar : Byte
  buffer : List Byte

def wanted (s : State) : Nat := if s.phase = .colour then 1 else bufferSize

theorem wantedBounded (s : State) : wanted s ≤ bufferSize := by
  unfold wanted
  split <;> decide

def receive (s : State) (chunk : Chunk) : Option State :=
  match s.phase with
  | .colour => some {s with playerChar := chunk.bytes.headD s.playerChar, phase := .receiving}
  | .receiving =>
    let buffer := overwrite s.buffer chunk.bytes
    match storeFrame s.board buffer chunk.bytes.length with
    | none => some {s with buffer := buffer, phase := .exited}
    | some (.error fault) => some {s with buffer := buffer, phase := .undefined fault}
    | some (.ok board) => some {s with buffer := buffer, board := board, phase := .moving []}
  | _ => none

/- One more quadruple for `make_move`, which has returned nothing on those before. -/
def scan (s : State) (q : Coordinates) : Option (Option Turn × State) :=
  match s.phase with
  | .moving typed =>
    match makeMove s.board s.playerChar (typed ++ [q]) with
    | .ok none => some (none,{s with phase := .moving (typed ++ [q])})
    | .ok (some turn) => some (some turn,{s with board := turn.board, phase := .sending})
    | .error fault => some (none,{s with phase := .undefined fault})
  | _ => none

def send (s : State) : Option (List Byte × State) :=
  match s.phase with
  | .sending => some (boardFrame s.board,{s with phase := .receiving})
  | _ => none

section Receiving
variable {s : State} {chunk : Chunk}

theorem receiveColour {colour : Byte} (waiting : s.phase = .colour) (single : chunk.bytes = [colour]) :
    receive s chunk = some {s with playerChar := colour, phase := .receiving} := by
  simp only [receive, waiting, single, List.headD_cons]

-- Also where the connection was closed, and no colour has come.
theorem colourRead {next : State} (waiting : s.phase = .colour) (received : receive s chunk = some next) :
    next.phase = .receiving := by
  simp only [receive, waiting] at received
  cases Option.some.inj received
  rfl

theorem receiveDelivered {board : Board} (waiting : s.phase = .receiving)
    (delivers : Delivers chunk board) :
    ∃ next, receive s chunk = some next ∧ next.phase = .moving [] ∧ next.board = board ∧
      next.playerChar = s.playerChar := by
  simp only [receive, waiting, storeDelivered delivers]
  exact ⟨_, rfl, rfl, rfl, rfl⟩

theorem receiveRefused (waiting : s.phase = .receiving) (refused : Refused chunk) :
    ∃ next, receive s chunk = some next ∧ next.phase = .exited ∧ next.board = s.board := by
  simp only [receive, waiting, storeRefused refused]
  exact ⟨_, rfl, rfl, rfl⟩

theorem receiveReady (chunk : Chunk) (listens : s.phase = .colour ∨ s.phase = .receiving) :
    ∃ next, receive s chunk = some next := by
  rcases listens with colour | receiving
  · simp only [receive, colour]
    exact ⟨_, rfl⟩
  · simp only [receive, receiving]
    split <;> exact ⟨_, rfl⟩

theorem scanCases {q : Coordinates} {typed : List Coordinates} (moving : s.phase = .moving typed) :
    (makeMove s.board s.playerChar (typed ++ [q]) = .ok none ∧
      scan s q = some (none,{s with phase := .moving (typed ++ [q])})) ∨
    ∃ turn, makeMove s.board s.playerChar (typed ++ [q]) = .ok (some turn) ∧
      scan s q = some (some turn,{s with board := turn.board, phase := .sending}) := by
  obtain ⟨out, returns⟩ := Turn.makeMoveNoFault s.board s.playerChar (typed ++ [q])
  cases out with
  | none => exact .inl ⟨returns, by simp only [scan, moving, returns]⟩
  | some turn => exact .inr ⟨turn, returns, by simp only [scan, moving, returns]⟩

end Receiving
end Warcaby.Klient
