import Warcaby.Wire

/-! `server.c`: the colours it hands out and the loop of `play_game`, one `send` or
`recv` at a time. Both calls succeed; an empty chunk is a closed connection. -/
namespace Warcaby.Server
open ByteStream Tlv Wire

inductive Client where
  | one
  | two
  deriving DecidableEq, Repr

def Client.other : Client → Client
  | one => two
  | two => one

@[simp] theorem Client.otherOther (c : Client) : c.other.other = c := by cases c <;> rfl

theorem Client.apart {c d : Client} (different : d ≠ c) : d = c.other := by
  cases c <;> cases d <;> first | rfl | exact absurd rfl different

/- `choose_players_pawns`: `rand_num` is `rand() % 2`. -/
def player1 (randNum : Nat) : Byte := if randNum = 0 then charX else charO
def player2 (randNum : Nat) : Byte := if player1 randNum = charX then charO else charX

def choosePlayersPawns (randNum : Nat) : Client → Byte
  | .one => player1 randNum
  | .two => player2 randNum

/- Where the server stands. It leaves its loop only through `exit(EXIT_FAILURE)`;
past an access outside the decoded data nothing is known about it. -/
inductive Phase where
  | sendingColour (c : Client)
  | sending (c : Client)
  | receiving (c : Client)
  | exited
  | undefined (fault : Fault)
  deriving DecidableEq, Repr

structure State where
  phase : Phase
  board : Board
  buffer : List Byte
  randNum : Nat

def accepted (randNum : Nat) : State :=
  ⟨.sendingColour .one,initializeBoard,List.replicate bufferSize nul,randNum⟩

def playGame (randNum : Nat) : State := {accepted randNum with phase := .sending .one}

inductive Event where
  | sent (receiver : Client) (bytes : List Byte)
  | stored (sender : Client) (board : Board)

def send (s : State) : Option (Client × List Byte × State) :=
  match s.phase with
  | .sendingColour .one =>
    some (.one,[choosePlayersPawns s.randNum .one],{s with phase := .sendingColour .two})
  | .sendingColour .two =>
    some (.two,[choosePlayersPawns s.randNum .two],{s with phase := .sending .one})
  | .sending c => some (c,boardFrame s.board,{s with phase := .receiving c})
  | _ => none

/- `recv` into the one buffer of the loop, `tlv_decode` and `set_board_to_buffer`. -/
def receive (s : State) (chunk : Chunk) : Option (List Event × State) :=
  match s.phase with
  | .receiving c =>
    let buffer := overwrite s.buffer chunk.bytes
    match storeFrame s.board buffer chunk.bytes.length with
    | none => some ([],{s with buffer := buffer, phase := .exited})
    | some (.error fault) => some ([],{s with buffer := buffer, phase := .undefined fault})
    | some (.ok board) =>
      some ([.stored c board],{s with buffer := buffer, board := board, phase := .sending c.other})
  | _ => none

def settle (s : State) : List Event × State :=
  match send s with
  | some (c,bytes,next) => ([.sent c bytes],next)
  | none => ([],s)

/- The loop on the chunks its `recv` calls return, until it waits for the next one. -/
def serve (s : State) : List Chunk → List Event × State
  | [] => settle s
  | chunk :: rest =>
    let now := settle s
    match receive now.2 chunk with
    | none => now
    | some (stores,next) =>
      let later := serve next rest
      (now.1 ++ stores ++ later.1,later.2)

/- One run of the loop. The receive buffer has no part in it. -/
inductive Serves : Client → Board → List Chunk → List Event → Phase → Prop where
  | waits (c board) : Serves c board [] [.sent c (boardFrame board)] (.receiving c)
  | refused {chunk} (c board rest) (bad : Refused chunk) :
      Serves c board (chunk :: rest) [.sent c (boardFrame board)] .exited
  | overrun {chunk} (c board rest fault) (bad : Overruns chunk) :
      Serves c board (chunk :: rest) [.sent c (boardFrame board)] (.undefined fault)
  | stored {chunk c board next rest events last} (good : Delivers chunk next)
      (later : Serves c.other next rest events last) :
      Serves c board (chunk :: rest)
        (.sent c (boardFrame board) :: .stored c next :: events) last

section Serving
variable {s : State} {c : Client} {chunk : Chunk}

theorem settleSending (ready : s.phase = .sending c) :
    settle s = ([.sent c (boardFrame s.board)],{s with phase := .receiving c}) := by
  simp only [settle, send, ready]

theorem settleStopped (stopped : s.phase = .exited ∨ ∃ fault, s.phase = .undefined fault) :
    settle s = ([],s) := by
  rcases stopped with exited | ⟨fault, undefined⟩
  · simp only [settle, send, exited]
  · simp only [settle, send, undefined]

theorem serveStopped (stopped : s.phase = .exited ∨ ∃ fault, s.phase = .undefined fault)
    (chunks : List Chunk) : serve s chunks = ([],s) := by
  cases chunks with
  | nil => exact settleStopped stopped
  | cons chunk rest =>
    have takes : receive s chunk = none := by
      rcases stopped with exited | ⟨fault, undefined⟩
      · simp only [receive, exited]
      · simp only [receive, undefined]
    simp only [serve, settleStopped stopped, takes]

theorem receiveDelivered {board : Board} (waiting : s.phase = .receiving c)
    (delivers : Delivers chunk board) :
    ∃ next, receive s chunk = some ([.stored c board],next) ∧
      next.phase = .sending c.other ∧ next.board = board ∧ next.randNum = s.randNum := by
  simp only [receive, waiting, storeDelivered delivers]
  exact ⟨_, rfl, rfl, rfl, rfl⟩

theorem receiveRefused (waiting : s.phase = .receiving c) (refused : Refused chunk) :
    ∃ next, receive s chunk = some ([],next) ∧ next.phase = .exited ∧ next.board = s.board := by
  simp only [receive, waiting, storeRefused refused]
  exact ⟨_, rfl, rfl, rfl⟩

theorem receiveOverrun (waiting : s.phase = .receiving c) (overruns : Overruns chunk) :
    ∃ fault next, receive s chunk = some ([],next) ∧ next.phase = .undefined fault := by
  obtain ⟨fault, stored⟩ := storeOverrun overruns s.board s.buffer
  simp only [receive, waiting, stored]
  exact ⟨fault, _, rfl, rfl⟩

theorem receiveReady (chunk : Chunk) (waiting : s.phase = .receiving c) :
    ∃ events next, receive s chunk = some (events,next) := by
  simp only [receive, waiting]
  split <;> exact ⟨_, _, rfl⟩

theorem serves (ready : s.phase = .sending c) (chunks : List Chunk) :
    Serves c s.board chunks (serve s chunks).1 (serve s chunks).2.phase := by
  induction chunks generalizing s c with
  | nil =>
    simp only [serve, settleSending ready]
    exact .waits c s.board
  | cons chunk rest ih =>
    simp only [serve, settleSending ready]
    rcases chunkVerdict chunk with refused | overruns | ⟨board, delivers⟩
    · obtain ⟨next, taken, exited, _⟩ := receiveRefused (s := {s with phase := .receiving c}) rfl refused
      simp only [taken, serveStopped (.inl exited), exited]
      exact .refused c s.board rest refused
    · obtain ⟨fault, next, taken, undefined⟩ :=
        receiveOverrun (s := {s with phase := .receiving c}) rfl overruns
      simp only [taken, serveStopped (.inr ⟨fault, undefined⟩), undefined]
      exact .overrun c s.board rest fault overruns
    · obtain ⟨next, taken, sending, stored, _⟩ :=
        receiveDelivered (s := {s with phase := .receiving c}) rfl delivers
      simp only [taken]
      rw [← stored] at delivers ⊢
      exact .stored delivers (ih sending)

end Serving

section Inversion
variable {c : Client} {board : Board} {chunk : Chunk} {rest : List Chunk} {events : List Event}
  {last : Phase}

theorem servesRefused (run : Serves c board (chunk :: rest) events last) (refused : Refused chunk) :
    events = [.sent c (boardFrame board)] ∧ last = .exited := by
  cases run with
  | refused => exact ⟨rfl, rfl⟩
  | overrun _ _ _ _ bad => exact absurd bad.accepted (refusedNotAccepted refused)
  | stored good _ => exact absurd good.accepted (refusedNotAccepted refused)

theorem servesOverrun (run : Serves c board (chunk :: rest) events last)
    (overruns : Overruns chunk) : events = [.sent c (boardFrame board)] := by
  cases run with
  | refused _ _ _ bad => exact absurd overruns.accepted (refusedNotAccepted bad)
  | overrun => rfl
  | stored good _ => exact absurd good.enough (Nat.not_le.mpr overruns.short)

theorem servesStored {next : Board} (run : Serves c board (chunk :: rest) events last)
    (delivers : Delivers chunk next) :
    ∃ later, events = .sent c (boardFrame board) :: .stored c next :: later ∧
      Serves c.other next rest later last := by
  cases run with
  | refused _ _ _ bad => exact absurd delivers.accepted (refusedNotAccepted bad)
  | overrun _ _ _ _ bad => exact absurd delivers.enough (Nat.not_le.mpr bad.short)
  | stored good later =>
    cases good.board.trans delivers.board.symm
    exact ⟨_, rfl, later⟩

end Inversion
end Warcaby.Server
