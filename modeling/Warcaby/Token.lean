import Warcaby.Session

/-! Where the board is. At any time one party holds the current board or one stream
carries it; everybody else waits. Each step of any party moves it one place on,
hands a client its colour, or lets a player type on. -/
namespace Warcaby.Token
open ByteStream Tlv Wire MakeMove Session
open Server (Client choosePlayersPawns)
open Transition (Run)

/- The stages of one client's turn, from the server about to send it the board to the
server about to receive it back. A client whose turn it is not is `waiting`. -/
inductive Stage where
  | waiting
  | offered
  | thinking
  | moved
  | returned
  deriving DecidableEq, Repr

inductive Place where
  | colours (c : Client)
  | turn (c : Client) (stage : Stage)
  deriving DecidableEq, Repr

/- `none`: the server has not sent this client its colour. -/
def Place.stage : Place → Client → Option Stage
  | colours .one, _ => none
  | colours .two, .one => some .waiting
  | colours .two, .two => none
  | turn c stage, d => if d = c then some stage else some .waiting

@[simp] theorem stageSelf (c : Client) (stage : Stage) : (Place.turn c stage).stage c = some stage :=
  if_pos rfl

@[simp] theorem stageOther {c d : Client} (apart : d ≠ c) (stage : Stage) :
    (Place.turn c stage).stage d = some .waiting := if_neg apart

def Place.phase : Place → Server.Phase
  | colours c => .sendingColour c
  | turn c .waiting => .sending c
  | turn c _ => .receiving c

def Place.toMove : Place → Client
  | colours _ => .one
  | turn c .moved => c.other
  | turn c .returned => c.other
  | turn c _ => c

def Place.atServer : Place → Bool
  | colours _ => true
  | turn _ stage => stage = .waiting

/- The incoming stream of a client in `recv`. The colour may still be in front. -/
inductive Inbox (colour : Byte) (rest : List Byte) (k : Klient.State) : List Byte → Prop where
  | queued (phase : k.phase = .colour) : Inbox colour rest k (colour :: rest)
  | taken (phase : k.phase = .receiving) (mine : k.playerChar = colour) : Inbox colour rest k rest

inductive Shows (colour : Byte) (board : Board) (k : Klient.State) :
    Option Stage → List Byte → List Byte → Prop where
  | unassigned (phase : k.phase = .colour) : Shows colour board k none [] []
  | waiting {down} (inbox : Inbox colour [] k down) : Shows colour board k (some .waiting) down []
  | offered {down} (inbox : Inbox colour (boardFrame board) k down) :
      Shows colour board k (some .offered) down []
  | thinking (typed) (phase : k.phase = .moving typed) (mine : k.playerChar = colour)
      (held : k.board = board) : Shows colour board k (some .thinking) [] []
  | moved (phase : k.phase = .sending) (mine : k.playerChar = colour) (held : k.board = board) :
      Shows colour board k (some .moved) [] []
  | returned (phase : k.phase = .receiving) (mine : k.playerChar = colour) :
      Shows colour board k (some .returned) [] (boardFrame board)

section Clients
variable {colour : Byte} {board : Board} {k next : Klient.State} {stage : Option Stage}
  {down up rest : List Byte}

theorem showsCases (shows' : Shows colour board k stage down up) :
    (k.phase = .colour ∨ k.phase = .receiving) ∨
    (stage = some .thinking ∧ ∃ typed, k.phase = .moving typed) ∨
    (stage = some .moved ∧ k.phase = .sending) := by
  cases shows' with
  | unassigned phase => exact .inl (.inl phase)
  | waiting inbox =>
    cases inbox with
    | queued phase => exact .inl (.inl phase)
    | taken phase => exact .inl (.inr phase)
  | offered inbox =>
    cases inbox with
    | queued phase => exact .inl (.inl phase)
    | taken phase => exact .inl (.inr phase)
  | thinking typed phase => exact .inr (.inl ⟨rfl, typed, phase⟩)
  | moved phase => exact .inr (.inr ⟨rfl, phase⟩)
  | returned phase => exact .inl (.inr phase)

theorem showsWaiting (shows' : Shows colour board k (some .waiting) down up) (other : Board) :
    Shows colour other k (some .waiting) down up := by
  cases shows' with
  | waiting inbox => exact .waiting inbox

theorem inboxColour {chunk : Chunk} (phase : k.phase = .colour)
    (taken : recv (Klient.wanted k) (Klient.wantedBounded k) (colour :: down) = some (chunk,rest))
    (received : Klient.receive k chunk = some next) :
    rest = down ∧ Inbox colour down next down := by
  obtain ⟨_, bytes, left⟩ := recvTaken taken
  have wanted : Klient.wanted k = 1 := if_pos phase
  rw [wanted] at bytes left
  rw [Klient.receiveColour phase bytes] at received
  cases Option.some.inj received
  exact ⟨left, .taken rfl rfl⟩

theorem inboxFrame {chunk : Chunk} (clean : ∀ i j, board i j ≠ nul) (phase : k.phase = .receiving)
    (mine : k.playerChar = colour)
    (taken : recv (Klient.wanted k) (Klient.wantedBounded k) (boardFrame board) = some (chunk,rest))
    (received : Klient.receive k chunk = some next) :
    Shows colour board next (some .thinking) rest [] := by
  have wanted : Klient.wanted k = bufferSize := if_neg (by rw [phase]; decide)
  simp only [wanted] at taken
  obtain ⟨bytes, rfl⟩ := recvFrame taken
  obtain ⟨next', received', moving, held, kept⟩ :=
    Klient.receiveDelivered phase (frameDelivers clean bytes)
  cases Option.some.inj (received.symm.trans received')
  exact .thinking [] moving (kept.trans mine) held

theorem clientReceives {chunk : Chunk} (clean : ∀ i j, board i j ≠ nul)
    (shows' : Shows colour board k stage down up)
    (taken : recv (Klient.wanted k) (Klient.wantedBounded k) down = some (chunk,rest))
    (received : Klient.receive k chunk = some next) :
    Shows colour board next stage rest up ∨
      stage = some .offered ∧ Shows colour board next (some .thinking) rest up := by
  cases shows' with
  | unassigned => cases taken
  | waiting inbox =>
    cases inbox with
    | queued phase =>
      obtain ⟨rfl, inbox⟩ := inboxColour phase taken received
      exact .inl (.waiting inbox)
    | taken => cases taken
  | offered inbox =>
    cases inbox with
    | queued phase =>
      obtain ⟨rfl, inbox⟩ := inboxColour phase taken received
      exact .inl (.offered inbox)
    | taken phase mine => exact .inr ⟨rfl, inboxFrame clean phase mine taken received⟩
  | thinking => cases taken
  | moved => cases taken
  | returned => cases taken

theorem clientScans {q : Coordinates} {turn : Option Turn}
    (shows' : Shows colour board k stage down up) (scanned : Klient.scan k q = some (turn,next)) :
    stage = some .thinking ∧
      (turn = none ∧ Shows colour board next (some .thinking) down up ∨
      ∃ t, turn = some t ∧ k.board = board ∧
        makeMove board colour (typedSoFar k ++ [q]) = .ok (some t) ∧
        Shows colour t.board next (some .moved) down up) := by
  rcases showsCases shows' with listens | ⟨rfl, _⟩ | ⟨_, sending⟩
  · rcases listens with phase | phase <;> simp [Klient.scan, phase] at scanned
  · cases shows' with
    | thinking typed phase mine held =>
      refine ⟨rfl, ?_⟩
      rcases Klient.scanCases phase with ⟨_, scanned'⟩ | ⟨t, returns, scanned'⟩
      · cases Option.some.inj (scanned.symm.trans scanned')
        exact .inl ⟨rfl, .thinking _ rfl mine held⟩
      · cases Option.some.inj (scanned.symm.trans scanned')
        rw [mine, held] at returns
        refine .inr ⟨t, rfl, held, ?_, .moved rfl mine rfl⟩
        simpa only [typedSoFar, phase] using returns
  · simp [Klient.scan, sending] at scanned

theorem clientSends {bytes : List Byte} (shows' : Shows colour board k stage down up)
    (sent : Klient.send k = some (bytes,next)) :
    stage = some .moved ∧ Shows colour board next (some .returned) down (up ++ bytes) := by
  rcases showsCases shows' with listens | ⟨_, typed, moving⟩ | ⟨rfl, _⟩
  · rcases listens with phase | phase <;> simp [Klient.send, phase] at sent
  · simp [Klient.send, moving] at sent
  · cases shows' with
    | moved phase mine held =>
      simp only [Klient.send, phase] at sent
      cases Option.some.inj sent
      rw [held]
      exact ⟨rfl, .returned rfl mine⟩

theorem showsUnassigned (shows' : Shows colour board k none down up) :
    k.phase = .colour ∧ down = [] ∧ up = [] := by
  cases shows' with
  | unassigned phase => exact ⟨phase, rfl, rfl⟩

theorem colourGiven (shows' : Shows colour board k none down up) :
    Shows colour board k (some .waiting) (down ++ [colour]) up := by
  obtain ⟨phase, rfl, rfl⟩ := showsUnassigned shows'
  exact .waiting (.queued phase)

theorem boardGiven (shows' : Shows colour board k (some .waiting) down up) :
    Shows colour board k (some .offered) (down ++ boardFrame board) up := by
  cases shows' with
  | waiting inbox =>
    cases inbox with
    | queued phase => exact .offered (.queued phase)
    | taken phase mine => exact .offered (.taken phase mine)

theorem boardTaken (shows' : Shows colour board k stage down up) (occupied : up ≠ []) :
    stage = some .returned ∧ up = boardFrame board ∧ Shows colour board k (some .waiting) down [] := by
  cases shows' with
  | returned phase mine => exact ⟨rfl, rfl, .waiting (.taken phase mine)⟩
  | unassigned => exact absurd rfl occupied
  | waiting => exact absurd rfl occupied
  | offered => exact absurd rfl occupied
  | thinking => exact absurd rfl occupied
  | moved => exact absurd rfl occupied

end Clients

structure Holds (randNum : Nat) (place : Place) (board : Board) (s : State) : Prop where
  phase : s.server.phase = place.phase
  drawn : s.server.randNum = randNum
  copy : place.atServer = true → s.server.board = board
  shown : ∀ c, Shows (choosePlayersPawns randNum c) board (s.klient c) (place.stage c)
    (s.toKlient c) (s.toServer c)

section Steps
variable {randNum : Nat} {place : Place} {board : Board} {s t : State} {made : List Move} {c : Client}

theorem connectedHolds (first : Connected randNum s) :
    Holds randNum (.colours .one) initializeBoard s where
  phase := by rw [first.server]; rfl
  drawn := by rw [first.server]; rfl
  copy := by rw [first.server]; exact fun _ => rfl
  shown := by
    intro c
    rw [(first.quiet c).1, (first.quiet c).2]
    exact .unassigned (first.klients c).1

theorem activeStage {stage : Stage} (active : place.stage c = some stage) (busy : stage ≠ .waiting) :
    place = .turn c stage := by
  cases place with
  | colours d =>
    cases d <;> cases c <;> cases active
    exact absurd rfl busy
  | turn d stage' =>
    by_cases same : c = d
    · subst same
      rw [stageSelf] at active
      cases active
      rfl
    · rw [stageOther same] at active
      cases active
      exact absurd rfl busy

theorem notAtServer {stage : Stage} {P : Prop} (busy : stage ≠ .waiting)
    (held : (Place.turn c stage).atServer = true) : P := absurd (of_decide_eq_true held) busy

def Elsewhere (c : Client) (s t : State) : Prop :=
  ∀ d, d ≠ c → t.klient d = s.klient d ∧ t.toKlient d = s.toKlient d ∧ t.toServer d = s.toServer d

theorem shownTurn {stage stage' : Stage} {board' : Board} (frame : Elsewhere c s t)
    (holds : Holds randNum (.turn c stage) board s)
    (mine : Shows (choosePlayersPawns randNum c) board' (t.klient c) (some stage')
      (t.toKlient c) (t.toServer c)) (d : Client) :
    Shows (choosePlayersPawns randNum d) board' (t.klient d) ((Place.turn c stage').stage d)
      (t.toKlient d) (t.toServer d) := by
  by_cases same : d = c
  · subst same
    rw [stageSelf]
    exact mine
  · have old := holds.shown d
    obtain ⟨klient, down, up⟩ := frame d same
    rw [stageOther same] at old ⊢
    rw [klient, down, up]
    exact showsWaiting old board'

abbrev Moves (randNum : Nat) (place : Place) (board : Board) (made : List Move) (place' : Place)
    (board' : Board) : Prop :=
  Transition.Steps (centralised randNum) (board,place.toMove) made (board',place'.toMove)

def Advances (randNum : Nat) (place : Place) (board : Board) (made : List Move) (t : State) : Prop :=
  ∃ place' board', Holds randNum place' board' t ∧ Moves randNum place board made place' board'

theorem stays {place' : Place} (same : place.toMove = place'.toMove) :
    Moves randNum place board [] place' board := by
  unfold Moves
  rw [same]
  exact .nil _

theorem sendsStep (holds : Holds randNum place board s)
    (next : act s .serverSends = some (made,t)) :
    Advances randNum place board made t := by
  obtain ⟨c, bytes, server, sent, rfl, rfl⟩ := serverSent next
  have phase := holds.phase
  cases place with
  | colours d =>
    cases d with
    | one =>
      simp only [Server.send, phase, Place.phase] at sent
      cases Option.some.inj sent
      refine ⟨.colours .two, board, ⟨rfl, holds.drawn, fun _ => holds.copy rfl, fun d => ?_⟩, stays rfl⟩
      cases d with
      | one =>
        have given := colourGiven (holds.shown .one)
        simpa [Place.stage, holds.drawn] using given
      | two => simpa [Place.stage] using holds.shown .two
    | two =>
      simp only [Server.send, phase, Place.phase] at sent
      cases Option.some.inj sent
      refine ⟨.turn .one .waiting, board,
        ⟨rfl, holds.drawn, fun _ => holds.copy rfl, fun d => ?_⟩, stays rfl⟩
      cases d with
      | one => simpa [Place.stage] using holds.shown .one
      | two =>
        have given := colourGiven (holds.shown .two)
        simpa [Place.stage, holds.drawn] using given
  | turn d stage =>
    cases stage <;> simp only [Server.send, phase, Place.phase] at sent <;> try contradiction
    cases Option.some.inj sent
    have held := holds.copy rfl
    have given := boardGiven (stageSelf c .waiting ▸ holds.shown c)
    refine ⟨.turn c .offered, board,
      ⟨rfl, holds.drawn, notAtServer (by decide), shownTurn ?_ holds ?_⟩, stays rfl⟩
    · intro d apart
      exact ⟨rfl, Function.update_of_ne apart .., rfl⟩
    · simpa [held] using given

theorem takesStep (clean : ∀ i j, board i j ≠ nul) (holds : Holds randNum place board s)
    (next : act s .serverReceives = some (made,t)) :
    Advances randNum place board made t := by
  obtain ⟨c, chunk, rest, events, server, phase, taken, received, rfl, rfl⟩ := serverReceived next
  obtain ⟨active, frame, waits⟩ := boardTaken (holds.shown c) (recvTaken taken).1
  obtain rfl := activeStage active (by decide)
  rw [frame] at taken
  obtain ⟨bytes, rfl⟩ := recvFrame taken
  obtain ⟨server', received', sending, stored, drawn⟩ :=
    Server.receiveDelivered phase (frameDelivers clean bytes)
  cases Option.some.inj (received.symm.trans received')
  refine ⟨.turn c.other .waiting, board,
    ⟨sending, drawn.trans holds.drawn, fun _ => stored, fun d => ?_⟩, stays rfl⟩
  have frame' : Elsewhere c s {s with
      server := server, toServer := Function.update s.toServer c []} :=
    fun d apart => ⟨rfl, rfl, Function.update_of_ne apart ..⟩
  have waits' : Shows (choosePlayersPawns randNum c) board (s.klient c) (some .waiting)
      (s.toKlient c) (Function.update s.toServer c [] c) := by simpa using waits
  have mine := shownTurn frame' holds waits' d
  by_cases same : d = c
  · subst same
    rw [stageSelf] at mine
    rw [stageOther (by cases d <;> decide)]
    exact mine
  · rw [stageOther same] at mine
    obtain rfl := Client.apart same
    rw [stageSelf]
    exact mine

theorem receivesStep (clean : ∀ i j, board i j ≠ nul) (holds : Holds randNum place board s)
    (next : act s (.receives c) = some (made,t)) :
    Advances randNum place board made t := by
  obtain ⟨chunk, rest, klient, taken, received, rfl, rfl⟩ := klientReceived next
  have frame : Elsewhere c s {s with
      klient := Function.update s.klient c klient, toKlient := Function.update s.toKlient c rest} :=
    fun d apart => ⟨Function.update_of_ne apart .., Function.update_of_ne apart .., rfl⟩
  rcases clientReceives clean (holds.shown c) taken received with kept | ⟨offered, thinks⟩
  · refine ⟨place, board, ⟨holds.phase, holds.drawn, holds.copy, fun d => ?_⟩, stays rfl⟩
    by_cases same : d = c
    · subst same
      simpa using kept
    · obtain ⟨klient', down, up⟩ := frame d same
      rw [klient', down, up]
      exact holds.shown d
  · obtain rfl := activeStage offered (by decide)
    refine ⟨.turn c .thinking, board, ⟨holds.phase, holds.drawn, notAtServer (by decide), shownTurn frame holds ?_⟩,
      stays rfl⟩
    simpa using thinks

theorem typesStep {q : Coordinates} (holds : Holds randNum place board s)
    (next : act s (.types c q) = some (made,t)) :
    Advances randNum place board made t := by
  obtain ⟨turn, klient, scanned, rfl, rfl⟩ := klientScanned next
  have frame : Elsewhere c s {s with klient := Function.update s.klient c klient} :=
    fun d apart => ⟨Function.update_of_ne apart .., rfl, rfl⟩
  obtain ⟨thinking, typed | ⟨turn, rfl, held, returns, moved⟩⟩ := clientScans (holds.shown c) scanned
  · obtain rfl := activeStage thinking (by decide)
    obtain ⟨rfl, thinks⟩ := typed
    refine ⟨.turn c .thinking, board, ⟨holds.phase, holds.drawn, notAtServer (by decide), shownTurn frame holds ?_⟩,
      stays rfl⟩
    simpa using thinks
  · obtain rfl := activeStage thinking (by decide)
    refine ⟨.turn c .moved, turn.board, ⟨holds.phase, holds.drawn, notAtServer (by decide), shownTurn frame holds ?_⟩,
      .cons ⟨rfl, held, ?_, rfl⟩ (.nil _)⟩
    · simpa using moved
    · rw [← held] at returns
      exact returns

theorem sentStep (holds : Holds randNum place board s) (next : act s (.sends c) = some (made,t)) :
    Advances randNum place board made t := by
  obtain ⟨bytes, klient, sent, rfl, rfl⟩ := klientSent next
  obtain ⟨moved, returned⟩ := clientSends (holds.shown c) sent
  obtain rfl := activeStage moved (by decide)
  refine ⟨.turn c .returned, board, ⟨holds.phase, holds.drawn, notAtServer (by decide), shownTurn ?_ holds ?_⟩,
    stays rfl⟩
  · intro d apart
    exact ⟨Function.update_of_ne apart .., rfl, Function.update_of_ne apart ..⟩
  · simpa using returned

theorem holdsStep {a : Action} (clean : ∀ i j, board i j ≠ nul) (holds : Holds randNum place board s)
    (next : act s a = some (made,t)) :
    Advances randNum place board made t := by
  cases a with
  | serverSends => exact sendsStep holds next
  | serverReceives => exact takesStep clean holds next
  | receives c => exact receivesStep clean holds next
  | types c q => exact typesStep holds next
  | sends c => exact sentStep holds next

end Steps

section Runs
variable {randNum : Nat} {labels : List (Action × List Move)} {s : State} {c : Client}

theorem simulation : Transition.Simulation (distributed randNum) (centralised randNum)
    (fun labels s game => Run (centralised randNum) (moves labels) game ∧
      ∃ place, Holds randNum place game.1 s ∧ game.2 = place.toMove) Prod.snd where
  start := fun s first =>
    ⟨(initializeBoard,.one), rfl, .start rfl, .colours .one, connectedHolds first, rfl⟩
  step := by
    rintro labels s ⟨a, made⟩ t ⟨board, client⟩ ⟨run, place, holds, rfl⟩ next
    have clean := fun i j => gameCellNotNul ((centralisedWellFormed run).cells i j)
    obtain ⟨place', board', holds', steps⟩ := holdsStep clean holds next
    refine ⟨(board',place'.toMove), steps, ?_, place', holds', rfl⟩
    have longer := Transition.runSteps run steps
    simpa [moves] using longer

theorem reachableHolds (run : Run (distributed randNum) labels s) :
    ∃ place, Run (centralised randNum) (moves labels) (latest (moves labels),place.toMove) ∧
      Holds randNum place (latest (moves labels)) s ∧ toMove (moves labels) = place.toMove := by
  obtain ⟨game, _, run', place, holds, mover⟩ := Transition.simulatedRun simulation run
  obtain rfl := centralisedState run'
  refine ⟨place, ?_, holds, mover⟩
  rw [← mover]
  exact run'

end Runs

end Warcaby.Token
