import Warcaby.Diagnosis
import Warcaby.Symmetry

/-! The draw of the colours. Turning the board round and exchanging the colours makes a
run of the other draw out of every run, action by action and notice by notice. -/
namespace Warcaby.Mirror
open Tlv Wire MakeMove Rule Turn Rulebook Symmetry Diagnosis Session Token
open Grid (flatten rowMajor)
open Iteration (Blocks)
open Server (Client choosePlayersPawns)
open Transition (Run)

section Reasons
variable {board : Board} {p : Colour} {q : Coordinates} (a : Axis)

theorem rangeReflected : OutOfRange (a.typed q) ↔ OutOfRange q := by
  unfold OutOfRange
  cases a <;> simp only [Axis.typed, Axis.row, Axis.column, boardSize] <;> omega

theorem cellSame {x y : Byte} : a.cell x = a.cell y ↔ x = y := by
  refine ⟨fun same => ?_, congrArg a.cell⟩
  have twice := congrArg a.cell same
  rwa [cellTwice, cellTwice] at twice

theorem manSame {cell : Byte} : a.cell cell = (a.player p).man ↔ cell = p.man := by
  rw [← cellMan, cellSame]

theorem kingSome {cell : Byte} : (cell = charD ∨ cell = charQ) ↔ ∃ c : Colour, cell = c.king := by
  constructor
  · rintro (d | q)
    · exact ⟨.x, d⟩
    · exact ⟨.o, q⟩
  · rintro ⟨c, rfl⟩
    exact c.kingLetter

theorem kingReflects {cell : Byte} :
    (a.cell cell = charD ∨ a.cell cell = charQ) ↔ (cell = charD ∨ cell = charQ) := by
  rw [kingSome, kingSome]
  constructor
  · rintro ⟨c, same⟩
    exact ⟨a.player c, by rw [← cellKing, ← same, cellTwice]⟩
  · rintro ⟨c, rfl⟩
    exact ⟨a.player c, cellKing a c⟩

theorem aheadReflected : Ahead (a.player p) (a.typed q) ↔ Ahead p q := by
  unfold Ahead
  cases a with
  | columns => rfl
  | rows =>
    cases p <;>
      simp only [Axis.typed, Axis.row, Axis.player, Colour.other, Colour.forward, boardSize] <;> omega

theorem blocksReflected (c : Colour) (k : Nat) :
    Blocks (a.board board) (a.player c) (a.typed q) k ↔ Blocks board c q k := by
  unfold Blocks
  rw [boardStepped, ne_eq, cellBlank, playerOther, ne_eq, manSame]

theorem stoppedReflected {c : Colour} (king : square board q.x1 q.y1 = c.king) :
    Stopped (a.board board) (a.typed q) ↔ Stopped board q := by
  have there : square (a.board board) (a.typed q).x1 (a.typed q).y1 = (a.player c).king := by
    rw [← cellKing, ← king]
    exact boardCell a board q.x1 q.y1
  unfold Stopped
  rw [there, king, kingOfKing, kingOfKing, (typedLengths a q).1]
  simp only [blocksReflected]

theorem manReasonReflected : manReason (a.player p) (a.typed q) = manReason p q := by
  obtain ⟨rows, columns⟩ := typedLengths a q
  simp only [manReason, aheadReflected, rows, columns]

theorem slopeReflected : Sloped (a.typed q) ↔ Sloped q := by
  obtain ⟨rows, columns⟩ := typedLengths a q
  rw [Sloped, Sloped, rows, columns]

theorem kingReasonsReflected {c : Colour} (king : square board q.x1 q.y1 = c.king) :
    kingReasons (a.board board) (a.typed q) = kingReasons board q := by
  simp only [kingReasons, slopeReflected, stoppedReflected a king]

theorem reasonsReflected :
    reasons (a.board board) (a.player p) (a.typed q) = reasons board p q := by
  have source : square (a.board board) (a.typed q).x1 (a.typed q).y1 = a.cell (square board q.x1 q.y1) :=
    boardCell a board q.x1 q.y1
  have target : square (a.board board) (a.typed q).x2 (a.typed q).y2 = a.cell (square board q.x2 q.y2) :=
    boardCell a board q.x2 q.y2
  have kings : (a.cell (square board q.x1 q.y1) = charD ∨ a.cell (square board q.x1 q.y1) = charQ) ↔
      (square board q.x1 q.y1 = charD ∨ square board q.x1 q.y1 = charQ) := kingReflects a
  unfold reasons
  simp only [rangeReflected, source, target, ne_eq, manSame, cellBlank, ← not_or, kings,
    manReasonReflected]
  by_cases king : square board q.x1 q.y1 = charD ∨ square board q.x1 q.y1 = charQ
  · obtain ⟨c, here⟩ := kingSome.mp king
    rw [kingReasonsReflected a here]
  · by_cases mine : square board q.x1 q.y1 = p.man
    · simp only [mine, if_true]
    · have foreign : ¬ (square board q.x1 q.y1 = p.man ∨
          square board q.x1 q.y1 = charD ∨ square board q.x1 q.y1 = charQ) := not_or.mpr ⟨mine, king⟩
      simp only [foreign, not_false_eq_true, if_true]

end Reasons

section Calls
variable {board : Board} {p : Colour} (a : Axis)

def reflectTurn (a : Axis) (t : MakeMove.Turn) : MakeMove.Turn :=
  ⟨a.board t.board,a.typed t.typed,t.rest.map a.typed,t.output⟩

theorem callLegal {q : Coordinates} (legal : LegalMove board p q) (rest : List Coordinates) :
    makeMove board p.man (q :: rest) =
      .ok (some ⟨applied board q,q,rest,[.prompt,.handOver]⟩) := by
  obtain ⟨m, rfl, ply⟩ := (legalMovePly board p q).mp legal
  simp only [makeMove, passLegal ply, performed, okBind, appliedResult ply]
  rfl

theorem callIllegal {q : Coordinates} (illegal : ¬ LegalMove board p q) (rest : List Coordinates) :
    makeMove board p.man (q :: rest) = (makeMove board p.man rest).map (Option.map
      (fun t => {t with output := .prompt :: reasons board p q ++ t.output})) := by
  obtain ⟨r, passed, incorrect, same, output⟩ := passTold illegal
  obtain ⟨out, later⟩ := makeMoveNoFault board p.man rest
  simp [makeMove, passed, incorrect, same, output, later, Except.map]

theorem callReflected (board : Board) (p : Colour) (qs : List Coordinates) :
    makeMove (a.board board) (a.player p).man (qs.map a.typed) =
      (makeMove board p.man qs).map (Option.map (reflectTurn a)) := by
  induction qs with
  | nil => rfl
  | cons q qs ih =>
    rw [List.map_cons]
    by_cases legal : LegalMove board p q
    · rw [callLegal legal, callLegal ((legalReflects a).mpr legal), appliedReflected]
      rfl
    · rw [callIllegal legal, callIllegal (fun other => legal ((legalReflects a).mp other)), ih,
        reasonsReflected]
      obtain ⟨out, later⟩ := makeMoveNoFault board p.man qs
      rw [later]
      cases out <;> rfl

def turnedBoard (board : Board) : Board := Axis.rows.board (Axis.columns.board board)
def turnedTyped (q : Coordinates) : Coordinates := Axis.rows.typed (Axis.columns.typed q)
def turnedTurn (t : MakeMove.Turn) : MakeMove.Turn := reflectTurn .rows (reflectTurn .columns t)

theorem callTurned (board : Board) (p : Colour) (qs : List Coordinates) :
    makeMove (turnedBoard board) p.other.man (qs.map turnedTyped) =
      (makeMove board p.man qs).map (Option.map turnedTurn) := by
  have once := callReflected .columns board p qs
  have twice := callReflected .rows (Axis.columns.board board) p (qs.map Axis.columns.typed)
  rw [show p.man = (Axis.columns.player p).man from rfl, once, List.map_map] at twice
  refine twice.trans ?_
  obtain ⟨out, returns⟩ := makeMoveNoFault board p.man qs
  rw [returns]
  cases out <;> rfl

theorem boardTurnedTwice (board : Board) : turnedBoard (turnedBoard board) = board := by
  funext i j
  simp [turnedBoard, Axis.board, swappedTwice]

theorem initialTurned : turnedBoard initializeBoard = initializeBoard := by
  funext i j
  revert i j
  decide

end Calls

section Labels

def turnedMove (m : Move) : Move :=
  ⟨m.client,turnedBoard m.before,m.inputs.map turnedTyped,turnedTurn m.turn⟩

def turnedAction : Action → Action
  | .types c q => .types c (turnedTyped q)
  | a => a

def turnedLabel (l : Action × List Move) : Action × List Move :=
  (turnedAction l.1,l.2.map turnedMove)

theorem mapTwice {α : Type} {f : α → α} (twice : ∀ a, f (f a) = a) (xs : List α) :
    (xs.map f).map f = xs := by
  rw [List.map_map]
  exact (List.map_congr_left (fun a _ => twice a)).trans (List.map_id xs)

theorem typedTurnedTwice (q : Coordinates) : turnedTyped (turnedTyped q) = q := by
  simp [turnedTyped, Axis.typed, Axis.row, Axis.column]

theorem turnTurnedTwice (t : MakeMove.Turn) : turnedTurn (turnedTurn t) = t := by
  obtain ⟨board, last, rest, output⟩ := t
  have rests := mapTwice typedTurnedTwice rest
  simp only [turnedTurn, reflectTurn, List.map_map, MakeMove.Turn.mk.injEq] at rests ⊢
  exact ⟨boardTurnedTwice board, typedTurnedTwice last, rests, trivial⟩

theorem moveTurnedTwice (m : Move) : turnedMove (turnedMove m) = m := by
  obtain ⟨client, before, inputs, turn⟩ := m
  simp only [turnedMove, boardTurnedTwice, mapTwice typedTurnedTwice, turnTurnedTwice]

theorem labelTurnedTwice (l : Action × List Move) : turnedLabel (turnedLabel l) = l := by
  obtain ⟨a, made⟩ := l
  refine Prod.ext ?_ (mapTwice moveTurnedTwice made)
  cases a with
  | types c q => exact congrArg (Action.types c) (typedTurnedTwice q)
  | _ => rfl

end Labels

section Streams
variable {board : Board} {letters bytes : List Byte}

-- A stream holds colours, and then at most one frame.
def turnedBytes : List Byte → List Byte
  | [] => []
  | b :: rest =>
    if b = 0x01 then b :: (rest.take 1 ++ (rest.drop 1).reverse.map swapped)
    else swapped b :: turnedBytes rest

theorem swappedHeader {b : Byte} (letter : b ≠ 0x01) : swapped b ≠ 0x01 := by
  intro header
  have twice := swappedTwice b
  rw [header] at twice
  exact letter twice.symm

theorem bytesTurnedTwice (bytes : List Byte) : turnedBytes (turnedBytes bytes) = bytes := by
  induction bytes with
  | nil => rfl
  | cons b rest ih =>
    by_cases header : b = 0x01
    · cases rest with
      | nil => simp [turnedBytes, header]
      | cons size data =>
        have back := mapTwice swappedTwice data
        simpa [turnedBytes, header] using back
    · simp [turnedBytes, header, swappedHeader header, swappedTwice, ih]

theorem bytesAppend (all : ∀ b ∈ letters, b ≠ 0x01) (bytes : List Byte) :
    turnedBytes (letters ++ bytes) = turnedBytes letters ++ turnedBytes bytes := by
  induction letters with
  | nil => rfl
  | cons b letters ih =>
    obtain ⟨letter, others⟩ := List.forall_mem_cons.mp all
    simp [turnedBytes, letter, ih others]

theorem flattenTurned (board : Board) :
    flatten (turnedBoard board) = (flatten board).reverse.map swapped := by
  have backwards : (rowMajor 8 8).reverse = (rowMajor 8 8).map (fun s => (s.1.rev,s.2.rev)) := by decide
  rw [flatten, flatten, ← List.map_reverse, backwards, List.map_map, List.map_map]
  rfl

theorem turnedClean (clean : ∀ i j, board i j ≠ nul) (i j : Fin 8) : turnedBoard board i j ≠ nul := by
  intro empty
  have twice := swappedTwice (board i.rev j.rev)
  rw [show swapped (board i.rev j.rev) = nul from empty] at twice
  exact clean _ _ twice.symm

theorem frameTurned (clean : ∀ i j, board i j ≠ nul) :
    turnedBytes (boardFrame board) = boardFrame (turnedBoard board) := by
  rw [cleanFrame clean, cleanFrame (turnedClean clean), flattenTurned]
  rfl

end Streams

section Runs
variable {randNum other : Nat} {labels : List (Action × List Move)} {s s' t : State}
  {a : Action} {made : List Move} {place : Place} {board : Board} {c : Client}

def Opposite (randNum other : Nat) : Prop := randNum = 0 ↔ other ≠ 0

theorem colourTurned (opposite : Opposite randNum other) (c : Client) :
    choosePlayersPawns other c = swapped (choosePlayersPawns randNum c) := by
  unfold Opposite at opposite
  rw [assignedMan, assignedMan]
  by_cases zero : other = 0 <;> cases c <;> simp [assigned, zero, opposite] <;> rfl

def turnedPhase : Klient.Phase → Klient.Phase
  | .moving typed => .moving (typed.map turnedTyped)
  | phase => phase

structure TurnedKlient (k l : Klient.State) : Prop where
  phase : l.phase = turnedPhase k.phase
  board : l.board = turnedBoard k.board
  playerChar : k.phase ≠ .colour → l.playerChar = swapped k.playerChar

/- The receive buffers have no part in it. -/
structure Turned (s t : State) : Prop where
  phase : t.server.phase = s.server.phase
  board : t.server.board = turnedBoard s.server.board
  klients : ∀ c, TurnedKlient (s.klient c) (t.klient c)
  toKlient : ∀ c, t.toKlient c = turnedBytes (s.toKlient c)
  toServer : ∀ c, t.toServer c = turnedBytes (s.toServer c)

theorem phaseTurnedTwice (phase : Klient.Phase) : turnedPhase (turnedPhase phase) = phase := by
  cases phase with
  | moving typed => exact congrArg Klient.Phase.moving (mapTwice typedTurnedTwice typed)
  | _ => rfl

theorem typedTurned {k l : Klient.State} (turned : TurnedKlient k l) :
    typedSoFar l = (typedSoFar k).map turnedTyped := by
  unfold typedSoFar
  rw [turned.phase]
  cases k.phase <;> rfl

theorem turnedBack (turned : Turned s t) : Turned t s where
  phase := turned.phase.symm
  board := by rw [turned.board, boardTurnedTwice]
  klients := by
    intro c
    obtain ⟨phase, board, playerChar⟩ := turned.klients c
    refine ⟨by rw [phase, phaseTurnedTwice], by rw [board, boardTurnedTwice], fun given => ?_⟩
    rw [playerChar (fun colour => given (by rw [phase, colour]; rfl)), swappedTwice]
  toKlient := fun c => by rw [turned.toKlient c, bytesTurnedTwice]
  toServer := fun c => by rw [turned.toServer c, bytesTurnedTwice]

def Mirrors (other : Nat) (s' t : State) (a : Action) (made : List Move) : Prop :=
  ∃ t', act t (turnedAction a) = some (made.map turnedMove,t') ∧ Turned s' t' ∧ t'.server.randNum = other

theorem updateBoth {α β : Type} {r : α → β → Prop} {f : Client → α} {g : Client → β} {x : α} {y : β}
    (all : ∀ d, r (f d) (g d)) (here : r x y) (d : Client) :
    r (Function.update f c x d) (Function.update g c y d) := by
  by_cases same : d = c
  · subst same
    simpa using here
  · simpa [same] using all d

theorem streamsUpdate {f g : Client → List Byte} {x y : List Byte} (all : ∀ d, g d = turnedBytes (f d))
    (here : y = turnedBytes x) (d : Client) :
    Function.update g c y d = turnedBytes (Function.update f c x d) :=
  updateBoth (r := fun x y => y = turnedBytes x) all here d

theorem colourLetter (randNum : Nat) (c : Client) : choosePlayersPawns randNum c ≠ 0x01 := by
  rw [assignedMan]
  cases assigned randNum c <;> decide

theorem waitingLetters {stage : Option Stage} (waits : stage = none ∨ stage = some .waiting)
    (shows' : Shows (choosePlayersPawns randNum c) board (s.klient c) stage (s.toKlient c) (s.toServer c)) :
    ∀ b ∈ s.toKlient c, b ≠ 0x01 := by
  generalize s.toKlient c = down at shows'
  generalize s.toServer c = up at shows'
  cases shows' with
  | unassigned => simp
  | waiting inbox =>
    cases inbox with
    | queued => exact List.forall_mem_singleton.mpr (colourLetter randNum c)
    | taken => simp
  | _ => simp at waits

theorem serverSendsTurned (opposite : Opposite randNum other) (clean : ∀ i j, board i j ≠ nul)
    (holds : Holds randNum place board s) (turned : Turned s t) (drawn : t.server.randNum = other)
    (next : act s .serverSends = some (made,s')) : Mirrors other s' t .serverSends made := by
  obtain ⟨c, bytes, server, sent, rfl, rfl⟩ := serverSent next
  obtain ⟨server', sent', phase', board', drawn', letters⟩ : ∃ server',
      Server.send t.server = some (c,turnedBytes bytes,server') ∧ server'.phase = server.phase ∧
      server'.board = turnedBoard server.board ∧ server'.randNum = other ∧
      ∀ b ∈ s.toKlient c, b ≠ 0x01 := by
    have phase := holds.phase
    have phase' := turned.phase
    rw [phase] at phase'
    cases place with
    | colours d =>
      have unassigned : (Place.colours d).stage d = none := by cases d <;> rfl
      have letters := waitingLetters (.inl unassigned) (holds.shown d)
      have letter : [choosePlayersPawns t.server.randNum d] =
          turnedBytes [choosePlayersPawns s.server.randNum d] := by
        rw [drawn, holds.drawn, colourTurned opposite]
        simp [turnedBytes, colourLetter]
      cases d <;> simp only [Server.send, phase, Place.phase] at sent <;>
        cases Option.some.inj sent <;> simp only [Server.send, phase', Place.phase, letter] <;>
        exact ⟨_, rfl, rfl, turned.board, drawn, letters⟩
    | turn d stage =>
      cases stage <;> simp only [Server.send, phase, Place.phase] at sent <;> try contradiction
      cases Option.some.inj sent
      have letters := waitingLetters (.inr (stageSelf c .waiting)) (holds.shown c)
      have frame : boardFrame t.server.board = turnedBytes (boardFrame s.server.board) := by
        rw [turned.board, frameTurned (holds.copy rfl ▸ clean)]
      simp only [Server.send, phase', Place.phase, frame]
      exact ⟨_, rfl, rfl, turned.board, drawn, letters⟩
  refine ⟨_, by simp only [turnedAction, act, sent']; rfl, ?_, drawn'⟩
  exact ⟨phase', board', turned.klients,
    streamsUpdate turned.toKlient
      (by rw [turned.toKlient c, bytesAppend letters]), turned.toServer⟩

theorem serverReceivesTurned (clean : ∀ i j, board i j ≠ nul) (holds : Holds randNum place board s)
    (turned : Turned s t) (drawn : t.server.randNum = other)
    (next : act s .serverReceives = some (made,s')) : Mirrors other s' t .serverReceives made := by
  obtain ⟨c, chunk, rest, events, server, phase, taken, received, rfl, rfl⟩ := serverReceived next
  obtain ⟨_, frame, _⟩ := boardTaken (holds.shown c) (recvTaken taken).1
  rw [frame] at taken
  obtain ⟨bytes, rfl⟩ := recvFrame taken
  obtain ⟨_, received', sending, stored, _⟩ := Server.receiveDelivered phase (frameDelivers clean bytes)
  cases Option.some.inj (received.symm.trans received')
  have frame' : t.toServer c = boardFrame (turnedBoard board) := by
    rw [turned.toServer c, frame, frameTurned clean]
  obtain ⟨chunk', rest', taken'⟩ := recvReady (Nat.le_refl bufferSize) (frameOccupied (turnedBoard board))
  obtain ⟨bytes', rfl⟩ := recvFrame taken'
  have phase' : t.server.phase = .receiving c := turned.phase.trans phase
  obtain ⟨server', received', sending', stored', drawn'⟩ :=
    Server.receiveDelivered phase' (frameDelivers (turnedClean clean) bytes')
  have does : act t .serverReceives =
      some ([],{t with server := server', toServer := Function.update t.toServer c []}) := by
    simp only [act, phase', frame', taken', received', Option.bind_eq_bind, Option.bind_some]
  exact ⟨_, does, ⟨sending'.trans sending.symm, by rw [stored', stored], turned.klients,
    turned.toKlient, streamsUpdate turned.toServer rfl⟩,
    drawn'.trans drawn⟩

section Clients
variable {k l next : Klient.State} {chunk : Chunk} {rest : List Byte} {colour : Byte}

theorem colourReadTurned {bytes : List Byte} (letter : colour ≠ 0x01) (phase : k.phase = .colour)
    (turned : TurnedKlient k l)
    (taken : recv (Klient.wanted k) (Klient.wantedBounded k) (colour :: bytes) = some (chunk,rest))
    (received : Klient.receive k chunk = some next) :
    ∃ chunk' next', recv (Klient.wanted l) (Klient.wantedBounded l) (turnedBytes (colour :: bytes)) =
        some (chunk',turnedBytes rest) ∧
      Klient.receive l chunk' = some next' ∧ TurnedKlient next next' := by
  have phase' : l.phase = .colour := turned.phase.trans (by rw [phase]; rfl)
  have single : Klient.wanted k = 1 := if_pos phase
  have single' : Klient.wanted l = 1 := if_pos phase'
  obtain ⟨_, read, left⟩ := recvTaken taken
  rw [single] at read left
  rw [Klient.receiveColour phase read] at received
  cases Option.some.inj received
  have stream : turnedBytes (colour :: bytes) = swapped colour :: turnedBytes bytes := if_neg letter
  rw [stream]
  obtain ⟨chunk', rest', taken'⟩ := recvReady (Klient.wantedBounded l)
    (List.cons_ne_nil (swapped colour) (turnedBytes bytes))
  obtain ⟨_, read', left'⟩ := recvTaken taken'
  rw [single'] at read' left'
  subst left left'
  exact ⟨chunk', _, taken', Klient.receiveColour phase' read', rfl, turned.board, fun _ => rfl⟩

theorem frameReadTurned (clean : ∀ i j, board i j ≠ nul) (phase : k.phase = .receiving)
    (turned : TurnedKlient k l)
    (taken : recv (Klient.wanted k) (Klient.wantedBounded k) (boardFrame board) = some (chunk,rest))
    (received : Klient.receive k chunk = some next) :
    ∃ chunk' next', recv (Klient.wanted l) (Klient.wantedBounded l) (turnedBytes (boardFrame board)) =
        some (chunk',turnedBytes rest) ∧
      Klient.receive l chunk' = some next' ∧ TurnedKlient next next' := by
  have phase' : l.phase = .receiving := turned.phase.trans (by rw [phase]; rfl)
  have whole : Klient.wanted k = bufferSize := if_neg (by rw [phase]; decide)
  have whole' : Klient.wanted l = bufferSize := if_neg (by rw [phase']; decide)
  simp only [whole] at taken
  obtain ⟨bytes, rfl⟩ := recvFrame taken
  obtain ⟨_, received', moving, held, kept⟩ := Klient.receiveDelivered phase (frameDelivers clean bytes)
  cases Option.some.inj (received.symm.trans received')
  rw [frameTurned clean]
  obtain ⟨chunk', rest', taken'⟩ := recvReady (Klient.wantedBounded l) (frameOccupied (turnedBoard board))
  have taken'' := taken'
  simp only [whole'] at taken''
  obtain ⟨bytes', rfl⟩ := recvFrame taken''
  obtain ⟨next', received'', moving', held', kept'⟩ :=
    Klient.receiveDelivered phase' (frameDelivers (turnedClean clean) bytes')
  refine ⟨chunk', next', taken', received'', ?_, by rw [held', held], fun _ => ?_⟩
  · rw [moving, moving']
    rfl
  · rw [kept, kept', turned.playerChar (by rw [phase]; decide)]

theorem scanTurned {p : Colour} {typed : List Coordinates} {q : Coordinates}
    {turn : Option MakeMove.Turn} (phase : k.phase = .moving typed) (mine : k.playerChar = p.man)
    (turned : TurnedKlient k l) (scanned : Klient.scan k q = some (turn,next)) :
    ∃ next', Klient.scan l (turnedTyped q) = some (turn.map turnedTurn,next') ∧
      TurnedKlient next next' := by
  have phase' : l.phase = .moving (typed.map turnedTyped) := turned.phase.trans (by rw [phase]; rfl)
  have given := turned.playerChar (by simp [phase])
  have mine' : l.playerChar = p.other.man := by
    rw [given, mine]
    exact cellMan .rows p
  have call : makeMove l.board l.playerChar (typed.map turnedTyped ++ [turnedTyped q]) =
      (makeMove k.board k.playerChar (typed ++ [q])).map (Option.map turnedTurn) := by
    rw [turned.board, mine', mine, ← List.map_singleton, ← List.map_append]
    exact callTurned k.board p (typed ++ [q])
  rcases Klient.scanCases (q := q) phase with ⟨waits, same⟩ | ⟨t, returns, same⟩
  · cases Option.some.inj (scanned.symm.trans same)
    rw [waits] at call
    simp only [Klient.scan, phase', call]
    exact ⟨_, rfl, by simp [turnedPhase], turned.board, fun _ => given⟩
  · cases Option.some.inj (scanned.symm.trans same)
    rw [returns] at call
    simp only [Klient.scan, phase', call]
    exact ⟨_, rfl, rfl, rfl, fun _ => given⟩

end Clients

theorem receivesTurned (clean : ∀ i j, board i j ≠ nul) (holds : Holds randNum place board s)
    (turned : Turned s t) (drawn : t.server.randNum = other)
    (next : act s (.receives c) = some (made,s')) : Mirrors other s' t (.receives c) made := by
  obtain ⟨chunk, rest, klient, taken, received, rfl, rfl⟩ := klientReceived next
  obtain ⟨chunk', klient', taken', received', same⟩ : ∃ chunk' klient',
      recv (Klient.wanted (t.klient c)) (Klient.wantedBounded _) (turnedBytes (s.toKlient c)) =
        some (chunk',turnedBytes rest) ∧
      Klient.receive (t.klient c) chunk' = some klient' ∧ TurnedKlient klient klient' := by
    have shows' := holds.shown c
    generalize s.toKlient c = down at shows' taken ⊢
    generalize s.toServer c = up at shows'
    generalize place.stage c = stage at shows'
    cases shows' with
    | waiting inbox =>
      cases inbox with
      | queued phase => exact colourReadTurned (colourLetter randNum c) phase (turned.klients c) taken received
      | taken => cases taken
    | offered inbox =>
      cases inbox with
      | queued phase => exact colourReadTurned (colourLetter randNum c) phase (turned.klients c) taken received
      | taken phase => exact frameReadTurned clean phase (turned.klients c) taken received
    | _ => cases taken
  rw [← turned.toKlient c] at taken'
  have does : act t (.receives c) = some ([],{t with
      klient := Function.update t.klient c klient',
      toKlient := Function.update t.toKlient c (turnedBytes rest)}) := by
    simp only [act, taken', received', Option.bind_eq_bind, Option.bind_some]
  exact ⟨_, does, ⟨turned.phase, turned.board, updateBoth turned.klients same,
    streamsUpdate turned.toKlient rfl, turned.toServer⟩, drawn⟩

theorem typesTurned {q : Coordinates} (holds : Holds randNum place board s) (turned : Turned s t)
    (drawn : t.server.randNum = other) (next : act s (.types c q) = some (made,s')) :
    Mirrors other s' t (.types c q) made := by
  obtain ⟨turn, klient, scanned, rfl, rfl⟩ := klientScanned next
  obtain ⟨thinking, _⟩ := clientScans (holds.shown c) scanned
  obtain ⟨typed, phase⟩ := Discipline.showsThinking (thinking ▸ holds.shown c)
  have mine : (s.klient c).playerChar = (assigned randNum c).man := by
    rw [← assignedMan]
    exact (Discipline.showsColour (holds.shown c)).1 (by simp [phase])
  obtain ⟨klient', scanned', same⟩ := scanTurned phase mine (turned.klients c) scanned
  have listed : (turn.map turnedTurn).toList.map (move c (t.klient c) (turnedTyped q)) =
      (turn.toList.map (move c (s.klient c) q)).map turnedMove := by
    cases turn <;> simp [move, turnedMove, typedTurned (turned.klients c), (turned.klients c).board]
  have does : act t (.types c (turnedTyped q)) =
      some ((turn.toList.map (move c (s.klient c) q)).map turnedMove,{t with
        klient := Function.update t.klient c klient'}) := by
    simp only [act, scanned', Option.bind_eq_bind, Option.bind_some, listed]
  exact ⟨_, does, ⟨turned.phase, turned.board, updateBoth turned.klients same, turned.toKlient,
    turned.toServer⟩, drawn⟩

theorem sendsTurned (clean : ∀ i j, board i j ≠ nul) (holds : Holds randNum place board s)
    (turned : Turned s t) (drawn : t.server.randNum = other)
    (next : act s (.sends c) = some (made,s')) : Mirrors other s' t (.sends c) made := by
  obtain ⟨bytes, klient, sent, rfl, rfl⟩ := klientSent next
  obtain ⟨moved, _⟩ := clientSends (holds.shown c) sent
  obtain ⟨phase, held, empty⟩ : (s.klient c).phase = .sending ∧ (s.klient c).board = board ∧
      s.toServer c = [] := by
    have shows' := moved ▸ holds.shown c
    generalize s.toKlient c = down at shows'
    generalize s.toServer c = up at shows' ⊢
    cases shows' with
    | moved phase _ held => exact ⟨phase, held, rfl⟩
  obtain ⟨phase', board', playerChar⟩ := turned.klients c
  rw [phase] at phase'
  simp only [Klient.send, phase] at sent
  cases Option.some.inj sent
  have frame : boardFrame (t.klient c).board = turnedBytes (boardFrame (s.klient c).board) := by
    rw [board', frameTurned (held ▸ clean)]
  have sent' : Klient.send (t.klient c) =
      some (turnedBytes (boardFrame (s.klient c).board),{t.klient c with phase := .receiving}) := by
    rw [← frame]
    simp only [Klient.send, phase', turnedPhase]
  have does : act t (.sends c) = some ([],{t with
      klient := Function.update t.klient c {t.klient c with phase := .receiving},
      toServer := Function.update t.toServer c
        (t.toServer c ++ turnedBytes (boardFrame (s.klient c).board))}) := by
    simp only [act, sent', Option.bind_eq_bind, Option.bind_some]
  have stream : t.toServer c ++ turnedBytes (boardFrame (s.klient c).board) =
      turnedBytes (s.toServer c ++ boardFrame (s.klient c).board) := by
    rw [turned.toServer c, empty]
    rfl
  exact ⟨_, does, ⟨turned.phase, turned.board, updateBoth turned.klients
    ⟨rfl, board', fun _ => playerChar (by simp [phase])⟩, turned.toKlient,
    streamsUpdate turned.toServer stream⟩, drawn⟩

theorem turnedSimulates (opposite : Opposite randNum other) :
    Transition.Simulation (distributed randNum) (distributed other)
      (fun labels s t => Run (distributed randNum) labels s ∧ Turned s t ∧ t.server.randNum = other)
      (fun l => [turnedLabel l]) where
  start := by
    intro s first
    let t : State := {
      server := Server.accepted other
      klient := fun c => {s.klient c with board := turnedBoard (s.klient c).board}
      toKlient := s.toKlient
      toServer := s.toServer}
    have board (c : Client) : turnedBoard (s.klient c).board = initializeBoard := by
      rw [(first.klients c).2, initialTurned]
    refine ⟨t, ⟨rfl, fun c => ⟨(first.klients c).1, board c⟩, first.quiet⟩, .start first, ?_, rfl⟩
    refine ⟨by rw [first.server]; rfl, by rw [first.server]; exact initialTurned.symm, fun c => ?_,
      fun c => ?_, fun c => ?_⟩
    · refine ⟨?_, rfl, fun given => absurd (first.klients c).1 given⟩
      simp only [t, (first.klients c).1, turnedPhase]
    · simp only [t, (first.quiet c).1, turnedBytes]
    · simp only [t, (first.quiet c).2, turnedBytes]
  step := by
    rintro labels s ⟨a, made⟩ s' t ⟨run, turned, drawn⟩ next
    obtain ⟨place, holds, _, clean⟩ := Rounds.reachableClean run
    obtain ⟨t', next', turned', drawn'⟩ : Mirrors other s' t a made := by
      cases a with
      | serverSends => exact serverSendsTurned opposite clean holds turned drawn next
      | serverReceives => exact serverReceivesTurned clean holds turned drawn next
      | receives c => exact receivesTurned clean holds turned drawn next
      | types c q => exact typesTurned holds turned drawn next
      | sends c => exact sendsTurned clean holds turned drawn next
    exact ⟨t', Transition.stepsOne next', .step run next, turned', drawn'⟩

theorem runTurned (opposite : Opposite randNum other) (run : Run (distributed randNum) labels s) :
    ∃ t, Run (distributed other) (labels.map turnedLabel) t ∧ Turned s t := by
  obtain ⟨t, run', _, turned, _⟩ := Transition.simulatedRun (turnedSimulates opposite) run
  rw [← List.map_eq_flatMap] at run'
  exact ⟨t, run', turned⟩

theorem drawTurned (randNum other : Nat) (opposite : Opposite randNum other)
    (labels : List (Action × List Move)) :
    (∀ s, Run (distributed randNum) labels s →
      ∃ t, Run (distributed other) (labels.map turnedLabel) t ∧ Turned s t) ∧
    ∀ t, Run (distributed other) (labels.map turnedLabel) t →
      ∃ s, Run (distributed randNum) labels s ∧ Turned s t := by
  refine ⟨fun s run => runTurned opposite run, fun t run => ?_⟩
  have back : Opposite other randNum := by unfold Opposite at opposite ⊢; omega
  obtain ⟨s, run', turned⟩ := runTurned back run
  rw [mapTwice labelTurnedTwice] at run'
  exact ⟨s, run', turnedBack turned⟩

theorem drawTurnedCrowned : ∃ labels s t, Run (distributed 0) labels s ∧
    Run (distributed 1) (labels.map turnedLabel) t ∧ Turned s t ∧
    (moves (labels.map turnedLabel)).length = 10 ∧
    (moves (labels.map turnedLabel)).head?.map (fun m => m.turn.typed) = some ⟨6,7,5,6⟩ := by
  obtain ⟨labels, s, run, shown⟩ := playedRun (fun labels _ => ((moves (labels.map turnedLabel)).length,
    (moves (labels.map turnedLabel)).head?.map (fun m => m.turn.typed)))
    (SharedBoard.exchanges SharedBoard.crowningScript) (10,some ⟨6,7,5,6⟩) (by decide +kernel)
  obtain ⟨ten, first⟩ := Prod.mk.inj shown
  obtain ⟨t, run', turned⟩ := (drawTurned 0 1 (by unfold Opposite; decide) labels).1 s run
  exact ⟨labels, s, t, run, run', turned, ten, first⟩

end Runs
end Warcaby.Mirror
