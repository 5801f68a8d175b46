import Warcaby.Discipline
import Warcaby.SharedBoard

/-! The same programs on streams as TCP has them: a `recv` returns some bytes of what
has arrived, or none once the other end has exited and everything is read; and any
program may be stopped at any moment. -/
namespace Warcaby.Unreliable
open ByteStream Tlv Wire MakeMove Session Token
open Server (Client choosePlayersPawns)
open Transition (Machine Run Steps)

inductive Party where
  | server
  | client (c : Client)
  deriving DecidableEq, Repr

def Exited (s : State) : Party → Prop
  | .server => s.server.phase = .exited
  | .client c => (s.klient c).phase = .exited

instance (s party) : Decidable (Exited s party) := by unfold Exited; split <;> infer_instance

/- Some first bytes of what is there. At the end of the stream it returns 0. -/
def recvPart (limit : Nat) (bounded : limit ≤ bufferSize) (closed : Prop) [Decidable closed]
    (channel : List Byte) (size : Nat) : Option (Chunk × List Byte) :=
  if channel = [] then
    if closed then some (⟨[],Nat.zero_le _⟩,[]) else none
  else if small : 0 < size ∧ size ≤ limit then
    some (⟨channel.take size,(List.length_take_le size channel).trans (small.2.trans bounded)⟩,
      channel.drop size)
  else none

def klientRecv (k : Klient.State) (closed : Prop) [Decidable closed] (channel : List Byte)
    (size : Nat) : Option (Chunk × List Byte) :=
  recvPart (Klient.wanted k) (Klient.wantedBounded k) closed channel size

inductive Action where
  | serverSends
  | serverReceives (size : Nat)
  | receives (c : Client) (size : Nat)
  | types (c : Client) (q : Coordinates)
  | sends (c : Client)
  | stops (party : Party)
  deriving DecidableEq, Repr

def stop (s : State) : Party → State
  | .server => {s with server := {s.server with phase := .exited}}
  | .client c => {s with klient := Function.update s.klient c {s.klient c with phase := .exited}}

def act (s : State) : Action → Option (List Move × State)
  | .serverSends => Session.act s .serverSends
  | .serverReceives size =>
    match s.server.phase with
    | .receiving c => do
      let (chunk,rest) ←
        recvPart bufferSize (Nat.le_refl _) (Exited s (.client c)) (s.toServer c) size
      let (_,next) ← Server.receive s.server chunk
      some ([],{s with server := next, toServer := Function.update s.toServer c rest})
    | _ => none
  | .receives c size => do
    let (chunk,rest) ← klientRecv (s.klient c) (Exited s .server) (s.toKlient c) size
    let next ← Klient.receive (s.klient c) chunk
    some ([],{s with
      klient := Function.update s.klient c next, toKlient := Function.update s.toKlient c rest})
  | .types c q => Session.act s (.types c q)
  | .sends c => Session.act s (.sends c)
  | .stops party => if Exited s party then none else some ([],stop s party)

def unreliable (randNum : Nat) : Machine State (Action × List Move) where
  start := Connected randNum
  step s label t := act s label.1 = some (label.2,t)

section Inversion
variable {s t : State} {made : List Move} {c : Client} {size : Nat} {party : Party}

theorem serverReceived (next : act s (.serverReceives size) = some (made,t)) :
    ∃ c chunk rest events server, s.server.phase = .receiving c ∧
      recvPart bufferSize (Nat.le_refl _) (Exited s (.client c)) (s.toServer c) size =
        some (chunk,rest) ∧
      Server.receive s.server chunk = some (events,server) ∧ made = [] ∧
      t = {s with server := server, toServer := Function.update s.toServer c rest} := by
  simp only [act] at next
  split at next <;> try contradiction
  rename_i c phase
  simp only [Option.bind_eq_bind, Option.bind_eq_some_iff] at next
  obtain ⟨⟨chunk, rest⟩, taken, ⟨events, server⟩, received, same⟩ := next
  cases Option.some.inj same
  exact ⟨c, chunk, rest, events, server, phase, taken, received, rfl, rfl⟩

theorem klientReceived (next : act s (.receives c size) = some (made,t)) :
    ∃ chunk rest klient,
      recvPart (Klient.wanted (s.klient c)) (Klient.wantedBounded _) (Exited s .server)
        (s.toKlient c) size = some (chunk,rest) ∧
      Klient.receive (s.klient c) chunk = some klient ∧ made = [] ∧
      t = {s with
        klient := Function.update s.klient c klient, toKlient := Function.update s.toKlient c rest} := by
  simp only [act, klientRecv, Option.bind_eq_bind, Option.bind_eq_some_iff] at next
  obtain ⟨⟨chunk, rest⟩, taken, klient, received, same⟩ := next
  cases Option.some.inj same
  exact ⟨chunk, rest, klient, taken, received, rfl, rfl⟩

theorem stopped (next : act s (.stops party) = some (made,t)) :
    ¬ Exited s party ∧ made = [] ∧ t = stop s party := by
  simp only [act] at next
  split at next
  · cases next
  · rename_i running
    cases Option.some.inj next
    exact ⟨running, rfl, rfl⟩

end Inversion

section Parts
variable {limit size : Nat} {bounded : limit ≤ bufferSize} {closed : Prop} [Decidable closed]
  {channel rest : List Byte} {chunk : Chunk} {board : Board}

theorem partTaken (taken : recvPart limit bounded closed channel size = some (chunk,rest)) :
    channel = [] ∧ closed ∧ chunk.bytes = [] ∧ rest = [] ∨
      channel ≠ [] ∧ 0 < size ∧ size ≤ limit ∧ chunk.bytes = channel.take size ∧
        rest = channel.drop size := by
  unfold recvPart at taken
  split at taken
  · rename_i empty
    split at taken
    · cases Option.some.inj taken
      exact .inl ⟨empty, ‹_›, rfl, rfl⟩
    · cases taken
  · rename_i occupied
    split at taken
    · rename_i small
      cases Option.some.inj taken
      exact .inr ⟨occupied, small.1, small.2, rfl, rfl⟩
    · cases taken

theorem emptyRefused (empty : chunk.bytes = []) : Refused chunk := by
  unfold Refused
  rw [empty]
  rfl

theorem shortRefused (bytes : chunk.bytes = (boardFrame board).take size)
    (short : size < (boardFrame board).length) : Refused chunk := by
  have small := strlenBoard board
  rw [Refused, bytes, List.length_take]
  rw [boardFrame, bufferLength] at short ⊢
  rw [encodeLength (bufferFits small)] at short ⊢
  rw [Nat.min_eq_left (by omega)]
  exact decodeShort (by omega) short

theorem partFrame
    (taken : recvPart limit bounded closed (boardFrame board) size = some (chunk,rest)) :
    chunk.bytes = boardFrame board ∧ rest = [] ∨ Refused chunk := by
  rcases partTaken taken with ⟨empty, _⟩ | ⟨_, _, _, bytes, left⟩
  · exact absurd empty (frameOccupied board)
  · rcases Nat.lt_or_ge size (boardFrame board).length with short | whole
    · exact .inr (shortRefused bytes short)
    · rw [List.take_of_length_le whole] at bytes
      rw [List.drop_of_length_le whole] at left
      exact .inl ⟨bytes, left⟩

theorem givenFrame {given : Prop} [Decidable given]
    (taken : recvPart limit bounded closed (if given then boardFrame board else []) size =
      some (chunk,rest)) :
    given ∧ chunk.bytes = boardFrame board ∧ rest = [] ∨ Refused chunk := by
  by_cases whole : given
  · rw [if_pos whole] at taken
    exact (partFrame taken).imp_left (fun frame => ⟨whole, frame⟩)
  · rw [if_neg whole] at taken
    rcases partTaken taken with ⟨_, _, empty, _⟩ | ⟨occupied, _⟩
    · exact .inr (emptyRefused empty)
    · exact absurd rfl occupied

theorem wholePart (some' : 0 < limit) (taken : recv limit bounded channel = some (chunk,rest)) :
    recvPart limit bounded closed channel limit = some (chunk,rest) := by
  obtain ⟨occupied, bytes, left⟩ := recvTaken taken
  unfold recvPart
  rw [if_neg occupied, dif_pos ⟨some', Nat.le_refl limit⟩]
  obtain ⟨bytes', small⟩ := chunk
  dsimp only at bytes
  subst bytes left
  rfl

theorem partWhole (occupied : channel ≠ []) (bytes : chunk.bytes = channel.take limit)
    (left : rest = channel.drop limit) : recv limit bounded channel = some (chunk,rest) := by
  obtain ⟨bytes', small⟩ := chunk
  dsimp only at bytes
  subst bytes left
  exact if_neg occupied

theorem frameWhole {bounded : bufferSize ≤ bufferSize} (bytes : chunk.bytes = boardFrame board) :
    recv bufferSize bounded (boardFrame board) = some (chunk,[]) := by
  refine partWhole (frameOccupied board) ?_ ?_
  · rw [bytes, List.take_of_length_le (frameFits board)]
  · rw [List.drop_of_length_le (frameFits board)]

end Parts

section Clients
variable {colour : Byte} {board : Board} {k next : Klient.State} {stage : Option Stage}
  {down up rest : List Byte} {closed : Prop} [Decidable closed] {chunk : Chunk} {size : Nat}

theorem receivedRefused (phase : k.phase = .receiving) (refused : Refused chunk)
    (received : Klient.receive k chunk = some next) : next.phase = .exited := by
  obtain ⟨next', received', exited, _⟩ := Klient.receiveRefused phase refused
  cases Option.some.inj (received.symm.trans received')
  exact exited

theorem colourPart (phase : k.phase = .colour)
    (taken : recvPart (Klient.wanted k) (Klient.wantedBounded k) closed (colour :: down) size =
      some (chunk,rest)) (received : Klient.receive k chunk = some next) :
    rest = down ∧ Inbox colour down next down := by
  have wanted : Klient.wanted k = 1 := if_pos phase
  rcases partTaken taken with ⟨empty, _⟩ | ⟨_, some', one, bytes, left⟩
  · cases empty
  · obtain rfl : size = 1 := by omega
    rw [Klient.receiveColour phase bytes] at received
    cases Option.some.inj received
    exact ⟨left, .taken rfl rfl⟩

theorem endPart (listens : k.phase = .colour ∨ k.phase = .receiving)
    (taken : recvPart (Klient.wanted k) (Klient.wantedBounded k) closed [] size = some (chunk,rest))
    (received : Klient.receive k chunk = some next) :
    closed ∧ rest = [] ∧ (k.phase = .colour ∧ next.phase = .receiving ∨ next.phase = .exited) := by
  rcases partTaken taken with ⟨_, gone, bytes, left⟩ | ⟨occupied, _⟩
  · refine ⟨gone, left, ?_⟩
    rcases listens with phase | phase
    · exact .inl ⟨phase, Klient.colourRead phase received⟩
    · exact .inr (receivedRefused phase (emptyRefused bytes) received)
  · exact absurd rfl occupied

theorem clientTakesPart (shows' : Shows colour board k stage down up)
    (taken : recvPart (Klient.wanted k) (Klient.wantedBounded k) closed down size = some (chunk,rest))
    (received : Klient.receive k chunk = some next) :
    (k.phase = .colour ∧ next.phase = .receiving ∧ Shows colour board next stage rest up) ∨
    (stage = some .offered ∧ k.phase = .receiving ∧ k.playerChar = colour ∧
      chunk.bytes = boardFrame board ∧ rest = [] ∧ up = []) ∨
    next.phase = .exited ∨
    (closed ∧ k.phase = .colour ∧ next.phase = .receiving ∧ rest = []) := by
  have ended (listens : k.phase = .colour ∨ k.phase = .receiving) (empty : down = []) :
      next.phase = .exited ∨ (closed ∧ k.phase = .colour ∧ next.phase = .receiving ∧ rest = []) := by
    subst empty
    obtain ⟨gone, left, missed | exits⟩ := endPart listens taken received
    · exact .inr ⟨gone, missed.1, missed.2, left⟩
    · exact .inl exits
  cases shows' with
  | unassigned phase => exact .inr (.inr (ended (.inl phase) rfl))
  | waiting inbox =>
    cases inbox with
    | queued phase =>
      obtain ⟨rfl, inbox⟩ := colourPart phase taken received
      exact .inl ⟨phase, Klient.colourRead phase received, .waiting inbox⟩
    | taken phase => exact .inr (.inr (ended (.inr phase) rfl))
  | offered inbox =>
    cases inbox with
    | queued phase =>
      obtain ⟨rfl, inbox⟩ := colourPart phase taken received
      exact .inl ⟨phase, Klient.colourRead phase received, .offered inbox⟩
    | taken phase mine =>
      rcases partFrame taken with ⟨bytes, rfl⟩ | refused
      · exact .inr (.inl ⟨rfl, phase, mine, bytes, rfl, rfl⟩)
      · exact .inr (.inr (.inl (receivedRefused phase refused received)))
  | thinking _ phase => simp [Klient.receive, phase] at received
  | moved phase => simp [Klient.receive, phase] at received
  | returned phase => exact .inr (.inr (ended (.inr phase) rfl))

theorem clientReceivesPart (clean : ∀ i j, board i j ≠ nul)
    (shows' : Shows colour board k stage down up)
    (taken : recvPart (Klient.wanted k) (Klient.wantedBounded k) closed down size = some (chunk,rest))
    (received : Klient.receive k chunk = some next) :
    (k.phase = .colour ∧ next.phase = .receiving ∧ Shows colour board next stage rest up) ∨
    (stage = some .offered ∧ k.phase = .receiving ∧ Shows colour board next (some .thinking) rest up) ∨
    next.phase = .exited ∨
    (closed ∧ k.phase = .colour ∧ next.phase = .receiving ∧ rest = []) := by
  refine (clientTakesPart shows' taken received).imp_right (Or.imp_left ?_)
  rintro ⟨offered, phase, mine, bytes, rfl, rfl⟩
  obtain ⟨next', received', moving, held, kept⟩ :=
    Klient.receiveDelivered phase (frameDelivers clean bytes)
  cases Option.some.inj (received.symm.trans received')
  exact ⟨offered, phase, .thinking [] moving (kept.trans mine) held⟩

theorem showsFrame (shows' : Shows colour board k stage down up) (read : k.phase ≠ .colour)
    (occupied : down ≠ []) : k.phase = .receiving ∧ down = boardFrame board := by
  cases shows' with
  | unassigned phase => exact absurd phase read
  | waiting inbox =>
    cases inbox with
    | queued phase => exact absurd phase read
    | taken => exact absurd rfl occupied
  | offered inbox =>
    cases inbox with
    | queued phase => exact absurd phase read
    | taken phase => exact ⟨phase, rfl⟩
  | thinking | moved | returned => exact absurd rfl occupied

theorem returnedWaits (shows' : Shows colour board k (some .returned) down up) :
    Shows colour board k (some .waiting) down [] := by
  cases shows' with
  | returned phase mine => exact .waiting (.taken phase mine)

end Clients

/- `Holds`, for those who have not exited. A client that missed its colour is none of
them: it reads from a stream that has ended. -/
def Missed (s : State) (c : Client) : Prop :=
  Exited s .server ∧ (s.klient c).phase = .receiving ∧ s.toKlient c = []

def Taking (randNum : Nat) (stage : Option Stage) (board : Board) (s : State) (c : Client) : Prop :=
  Exited s (.client c) ∨ Missed s c ∨
    ∃ up, Shows (choosePlayersPawns randNum c) board (s.klient c) stage (s.toKlient c) up

def ServerHolds (randNum : Nat) (place : Place) (board : Board) (s : State) : Prop :=
  s.server.phase = place.phase ∧ s.server.randNum = randNum ∧
    (place.atServer = true → s.server.board = board) ∧
    ∀ c, s.toServer c = if place.stage c = some .returned then boardFrame board else []

structure Loose (randNum : Nat) (place : Place) (board : Board) (s : State) : Prop where
  server : Exited s .server ∨ ServerHolds randNum place board s
  client : ∀ c, Taking randNum (place.stage c) board s c

def next : Place → Place
  | .colours .one => .colours .two
  | .colours .two => .turn .one .waiting
  | .turn c .waiting => .turn c .offered
  | .turn c .offered => .turn c .thinking
  | .turn c .thinking => .turn c .moved
  | .turn c .moved => .turn c .returned
  | .turn c .returned => .turn c.other .waiting

def actor : Place → Party
  | .turn c .offered => .client c
  | .turn c .thinking => .client c
  | .turn c .moved => .client c
  | _ => .server

/- What a program can still do by itself, at most: a client reads its colour, and any
of them exits. -/
def klientLoad (k : Klient.State) : Nat :=
  match k.phase with
  | .colour => 2
  | .exited => 0
  | _ => 1

def serverLoad (server : Server.State) : Nat :=
  match server.phase with
  | .exited => 0
  | _ => 1

def weight (s : State) : Nat :=
  serverLoad s.server + (klientLoad (s.klient .one) + klientLoad (s.klient .two))

def calls : Place → Nat
  | .turn _ .thinking => 1
  | _ => 0

def silent : Action → Bool
  | .types _ _ => false
  | .stops _ => false
  | _ => true

inductive Outcome (randNum : Nat) (place : Place) (board : Board) (s : State) (a : Action)
    (made : List Move) (t : State) : Prop where
  | stays (loose : Loose randNum place board t) (none : made = [])
      (lighter : weight t + (if silent a then 1 else 0) ≤ weight s)
  | goes (board') (loose : Loose randNum (next place) board' t) (running : ¬ Exited s (actor place))
      (moves : Moves randNum place board made (next place) board')
      (count : made.length = calls place) (typing : silent a → calls place = 0)
      (lighter : weight t ≤ weight s)

section Steps
variable {randNum : Nat} {place : Place} {board : Board} {s t : State} {made : List Move}
  {c d : Client} {size : Nat} {party : Party} {stage : Option Stage}

theorem connectedLoose (first : Connected randNum s) :
    Loose randNum (.colours .one) initializeBoard s := by
  have holds := connectedHolds first
  refine ⟨.inr ⟨holds.phase, holds.drawn, holds.copy, fun c => ?_⟩, fun c =>
    .inr (.inr ⟨_, holds.shown c⟩)⟩
  rw [(first.quiet c).2]
  rfl

theorem takingFrame (taking : Taking randNum stage board s d) (klient : t.klient d = s.klient d)
    (down : t.toKlient d = s.toKlient d) (gone : Exited s .server → Exited t .server) :
    Taking randNum stage board t d := by
  rcases taking with exited | ⟨closed, phase, empty⟩ | ⟨up, shows'⟩
  · exact .inl (show (t.klient d).phase = .exited from klient ▸ exited)
  · exact .inr (.inl ⟨gone closed, klient ▸ phase, down ▸ empty⟩)
  · exact .inr (.inr ⟨up, klient ▸ down ▸ shows'⟩)

theorem takingWaiting (taking : Taking randNum (some .waiting) board s d) (other : Board) :
    Taking randNum (some .waiting) other s d :=
  taking.imp_right (Or.imp_right (fun ⟨up, shows'⟩ => ⟨up, showsWaiting shows' other⟩))

theorem takingTurn {stage stage' : Stage} {board' : Board}
    (frame : ∀ d, d ≠ c → t.klient d = s.klient d ∧ t.toKlient d = s.toKlient d)
    (gone : Exited s .server → Exited t .server)
    (takes : ∀ d, Taking randNum ((Place.turn c stage).stage d) board s d)
    (mine : Taking randNum (some stage') board' t c) (d : Client) :
    Taking randNum ((Place.turn c stage').stage d) board' t d := by
  by_cases same : d = c
  · subst same
    rw [stageSelf]
    exact mine
  · have old := takes d
    rw [stageOther same] at old ⊢
    exact takingWaiting (takingFrame old (frame d same).1 (frame d same).2 gone) board'

theorem weightUpdate (s : State) (c : Client) (k : Klient.State) (down up : Client → List Byte) :
    weight {s with klient := Function.update s.klient c k, toKlient := down, toServer := up} +
      klientLoad (s.klient c) = weight s + klientLoad k := by
  cases c <;> simp only [weight, Function.update] <;> simp <;> omega

theorem runningLoad {server : Server.State} (running : server.phase ≠ .exited) :
    serverLoad server = 1 := by
  unfold serverLoad
  split
  · rename_i exited
    exact absurd exited running
  · rfl

theorem weightServer (running : ¬ Exited s .server) (server : Server.State)
    (down up : Client → List Byte) :
    weight {s with server := server, toKlient := down, toServer := up} + 1 =
      weight s + serverLoad server := by
  have before : serverLoad s.server = 1 := runningLoad running
  simp only [weight, before]
  omega

theorem loadBounded (server : Server.State) : serverLoad server ≤ 1 := by
  unfold serverLoad
  split <;> decide

theorem servingRunning (loose : Loose randNum place board s) (running : ¬ Exited s .server) :
    ServerHolds randNum place board s := loose.server.resolve_left running

theorem takingSent {server : Server.State} {bytes : List Byte} {stage' : Option Stage}
    (running : ¬ Exited s .server) (taking : Taking randNum stage board s c)
    (given : ∀ up, Shows (choosePlayersPawns randNum c) board (s.klient c) stage (s.toKlient c) up →
      Shows (choosePlayersPawns randNum c) board (s.klient c) stage' (s.toKlient c ++ bytes) up) :
    Taking randNum stage' board {s with
      server := server, toKlient := Function.update s.toKlient c (s.toKlient c ++ bytes)} c := by
  rcases taking with exited | missed | ⟨up, shows'⟩
  · exact .inl exited
  · exact absurd missed.1 running
  · exact .inr (.inr ⟨up, by simpa using given up shows'⟩)

theorem colourSent {server server' : Server.State} {bytes : List Byte}
    (phase : server.phase = .sendingColour c) (sent : Server.send server = some (d,bytes,server')) :
    d = c ∧ bytes = [choosePlayersPawns server.randNum c] ∧
      server' = {server with phase := (next (.colours c)).phase} := by
  cases c with
  | one =>
    simp only [Server.send, phase] at sent
    cases Option.some.inj sent
    exact ⟨rfl, rfl, rfl⟩
  | two =>
    simp only [Server.send, phase] at sent
    cases Option.some.inj sent
    exact ⟨rfl, rfl, rfl⟩

theorem takingElsewhere {server : Server.State} {bytes : List Byte} (running : ¬ Exited s .server)
    (apart : d ≠ c) (taking : Taking randNum stage board s d) : Taking randNum stage board {s with
      server := server, toKlient := Function.update s.toKlient c (s.toKlient c ++ bytes)} d :=
  takingFrame taking rfl (Function.update_of_ne apart ..) (fun gone => absurd gone running)

theorem weightSent (running : ¬ Exited s .server) (server : Server.State) (down : Client → List Byte) :
    weight {s with server := server, toKlient := down} ≤ weight s := by
  have same := weightServer running server down s.toServer
  have bound := loadBounded server
  omega

theorem stageColours (c d : Client) : (next (.colours c)).stage d =
    if d = c then some .waiting else (Place.colours c).stage d := by
  cases c <;> cases d <;> rfl

theorem outcomeSends (loose : Loose randNum place board s)
    (next' : act s .serverSends = some (made,t)) :
    Outcome randNum place board s .serverSends made t := by
  obtain ⟨c, bytes, server, sent, rfl, rfl⟩ := serverSent next'
  have running : ¬ Exited s .server := by
    intro exited
    simp [Server.send, (show s.server.phase = .exited from exited)] at sent
  obtain ⟨phase, drawn, copy, up⟩ := servingRunning loose running
  have lighter := weightSent running server (Function.update s.toKlient c (s.toKlient c ++ bytes))
  cases place with
  | colours d =>
    obtain ⟨rfl, rfl, rfl⟩ := colourSent phase sent
    have same : Moves randNum (.colours c) board [] (next (.colours c)) board := by
      cases c <;> exact Token.stays rfl
    refine .goes board ⟨.inr ⟨rfl, drawn, fun _ => copy rfl, fun d => ?_⟩, fun d => ?_⟩ running
      same rfl (fun _ => rfl) lighter
    · have before : (Place.colours c).stage d ≠ some .returned := by cases c <;> cases d <;> decide
      have after : (next (.colours c)).stage d ≠ some .returned := by cases c <;> cases d <;> decide
      rw [if_neg after]
      exact (up d).trans (if_neg before)
    · have old := loose.client d
      rw [stageColours]
      by_cases mine : d = c
      · subst mine
        have none : (Place.colours d).stage d = none := by cases d <;> rfl
        rw [none] at old
        rw [if_pos rfl, drawn]
        exact takingSent running old (fun _ => colourGiven)
      · rw [if_neg mine]
        exact takingElsewhere running mine old
  | turn d stage =>
    cases stage <;> simp only [Server.send, phase, Place.phase] at sent <;> try contradiction
    cases Option.some.inj sent
    have held := copy rfl
    refine .goes board ⟨.inr ⟨rfl, drawn, notAtServer (by decide), fun d => ?_⟩, fun d => ?_⟩ running
      (Token.stays rfl) rfl (fun _ => rfl) lighter
    · have empty := up d
      by_cases same : d = c
      · subst same
        simpa [next] using empty
      · simpa [next, same] using empty
    · have old := loose.client d
      by_cases same : d = c
      · subst same
        rw [next, stageSelf]
        rw [stageSelf] at old
        rw [held]
        exact takingSent running old (fun _ => boardGiven)
      · rw [next, stageOther same]
        rw [stageOther same] at old
        exact takingElsewhere running same old

theorem refusedExits {chunk : Chunk} {server : Server.State} {events : List Server.Event}
    (phase : s.server.phase = .receiving c) (refused : Refused chunk)
    (received : Server.receive s.server chunk = some (events,server)) : server.phase = .exited := by
  obtain ⟨next, received', exited, _⟩ := Server.receiveRefused phase refused
  cases Option.some.inj (received.symm.trans received')
  exact exited

theorem takesRefused {chunk : Chunk} {rest : List Byte} {events : List Server.Event}
    {server : Server.State} (loose : Loose randNum place board s) (running : ¬ Exited s .server)
    (phase : s.server.phase = .receiving c) (refused : Refused chunk)
    (received : Server.receive s.server chunk = some (events,server)) :
    Outcome randNum place board s (.serverReceives size) []
      {s with server := server, toServer := Function.update s.toServer c rest} := by
  have exited := refusedExits phase refused received
  have gone : serverLoad server = 0 := by simp only [serverLoad, exited]
  have same := weightServer running server s.toKlient (Function.update s.toServer c rest)
  refine .stays ⟨.inl exited, fun d => ?_⟩ rfl (by simp only [silent, if_true]; omega)
  exact takingFrame (loose.client d) rfl rfl (fun _ => exited)

theorem takingReturned {server : Server.State} {up : Client → List Byte} (running : ¬ Exited s .server)
    (takes : ∀ d, Taking randNum ((Place.turn c .returned).stage d) board s d) (d : Client) :
    Taking randNum ((next (.turn c .returned)).stage d) board
      {s with server := server, toServer := up} d := by
  have waits : (next (.turn c .returned)).stage d = some .waiting := by
    cases c <;> cases d <;> rfl
  rw [waits]
  have old := takes d
  by_cases mine : d = c
  · subst mine
    rw [stageSelf] at old
    have idle : Taking randNum (some .waiting) board s d :=
      old.imp_right (Or.imp_right (fun ⟨_, shows'⟩ => ⟨_, returnedWaits shows'⟩))
    exact takingFrame idle rfl rfl (fun gone => absurd gone running)
  · rw [stageOther mine] at old
    exact takingFrame old rfl rfl (fun gone => absurd gone running)

theorem outcomeTakes (clean : ∀ i j, board i j ≠ nul) (loose : Loose randNum place board s)
    (next' : act s (.serverReceives size) = some (made,t)) :
    Outcome randNum place board s (.serverReceives size) made t := by
  obtain ⟨c, chunk, rest, events, server, phase', taken, received, rfl, rfl⟩ := serverReceived next'
  have running : ¬ Exited s .server := by
    intro exited
    rw [(show s.server.phase = .exited from exited)] at phase'
    cases phase'
  obtain ⟨phase, drawn, copy, up⟩ := servingRunning loose running
  rw [up c] at taken
  rcases givenFrame taken with ⟨returned, bytes, rfl⟩ | refused
  · obtain rfl := activeStage returned (by decide)
    obtain ⟨next'', received', sending, stored, kept⟩ :=
      Server.receiveDelivered phase' (frameDelivers clean bytes)
    cases Option.some.inj (received.symm.trans received')
    have same := weightServer running server s.toKlient (Function.update s.toServer c [])
    have bound := loadBounded server
    refine .goes board ⟨.inr ⟨sending, kept.trans drawn, fun _ => stored, fun d => ?_⟩,
      takingReturned running loose.client⟩ running (Token.stays rfl) rfl (fun _ => rfl) (by omega)
    have none : (next (.turn c .returned)).stage d ≠ some .returned := by
      cases c <;> cases d <;> decide
    rw [if_neg none]
    by_cases mine : d = c
    · subst mine
      exact Function.update_self ..
    · have empty := up d
      rw [stageOther mine, if_neg (by decide)] at empty
      exact (Function.update_of_ne mine ..).trans empty
  · exact takesRefused loose running phase' refused received

theorem klientLoadOf {k : Klient.State} (running : k.phase ≠ .exited) (read : k.phase ≠ .colour) :
    klientLoad k = 1 := by
  unfold klientLoad
  split
  · rename_i colour
    exact absurd colour read
  · rename_i exited
    exact absurd exited running
  · rfl

theorem looseKlient {k : Klient.State} {down : List Byte} (loose : Loose randNum place board s)
    (mine : Taking randNum (place.stage c) board {s with
      klient := Function.update s.klient c k, toKlient := Function.update s.toKlient c down} c) :
    Loose randNum place board {s with
      klient := Function.update s.klient c k, toKlient := Function.update s.toKlient c down} := by
  refine ⟨loose.server, fun d => ?_⟩
  by_cases same : d = c
  · subst same
    exact mine
  · exact takingFrame (loose.client d) (Function.update_of_ne same ..) (Function.update_of_ne same ..) id

theorem servingNext {stage : Stage} (stage' : Stage) {klient : Client → Klient.State}
    {down : Client → List Byte} (server : Exited s .server ∨ ServerHolds randNum (.turn c stage) board s)
    (phases : (Place.turn c stage).phase = (Place.turn c stage').phase) (busy : stage' ≠ .waiting)
    (before : stage ≠ .returned) (after : stage' ≠ .returned) (board' : Board) :
    Exited {s with klient := klient, toKlient := down} .server ∨
      ServerHolds randNum (.turn c stage') board' {s with klient := klient, toKlient := down} := by
  rcases server with exited | ⟨phase, drawn, _, up⟩
  · exact .inl exited
  · refine .inr ⟨phase.trans phases, drawn, notAtServer busy, fun d => ?_⟩
    have empty := up d
    by_cases mine : d = c
    · subst mine
      simpa [before, after] using empty
    · simpa [mine] using empty

theorem receivesExits {klient : Klient.State} {rest : List Byte} (loose : Loose randNum place board s)
    (listens : (s.klient c).phase ≠ .exited) (exited : klient.phase = .exited) :
    Outcome randNum place board s (.receives c size) [] {s with
      klient := Function.update s.klient c klient,
      toKlient := Function.update s.toKlient c rest} := by
  have moved := weightUpdate s c klient (Function.update s.toKlient c rest) s.toServer
  have none : klientLoad klient = 0 := by simp only [klientLoad, exited]
  have some' : 1 ≤ klientLoad (s.klient c) := by
    unfold klientLoad
    split <;> first | decide | contradiction
  refine .stays (looseKlient loose (.inl ?_)) rfl (by simp only [silent, if_true]; omega)
  exact (congrArg Klient.State.phase (Function.update_self ..)).trans exited

theorem receivesColour {klient : Klient.State} {rest : List Byte} (loose : Loose randNum place board s)
    (colour : (s.klient c).phase = .colour) (receiving : klient.phase = .receiving)
    (mine : Taking randNum (place.stage c) board {s with
      klient := Function.update s.klient c klient,
      toKlient := Function.update s.toKlient c rest} c) :
    Outcome randNum place board s (.receives c size) [] {s with
      klient := Function.update s.klient c klient,
      toKlient := Function.update s.toKlient c rest} := by
  have moved := weightUpdate s c klient (Function.update s.toKlient c rest) s.toServer
  have two : klientLoad (s.klient c) = 2 := by simp only [klientLoad, colour]
  have one : klientLoad klient = 1 := klientLoadOf (by simp [receiving]) (by simp [receiving])
  exact .stays (looseKlient loose mine) rfl (by simp only [silent, if_true]; omega)

theorem outcomeReceives (clean : ∀ i j, board i j ≠ nul) (loose : Loose randNum place board s)
    (next' : act s (.receives c size) = some (made,t)) :
    Outcome randNum place board s (.receives c size) made t := by
  obtain ⟨chunk, rest, klient, taken, received, rfl, rfl⟩ := klientReceived next'
  have listens : (s.klient c).phase ≠ .exited := by
    intro gone
    simp [Klient.receive, gone] at received
  rcases loose.client c with exited | ⟨closed, receiving, empty⟩ | ⟨up, shows'⟩
  · exact absurd exited listens
  · rw [empty] at taken
    obtain ⟨_, _, missed | exited⟩ := endPart (.inr receiving) taken received
    · rw [receiving] at missed
      cases missed.1
    · exact receivesExits loose listens exited
  · rcases clientReceivesPart clean shows' taken received with ⟨colour, receiving, kept⟩ |
      ⟨offered, receiving, thinks⟩ | exited | ⟨closed, colour, receiving, ended⟩
    · exact receivesColour loose colour receiving (.inr (.inr ⟨up, by simpa using kept⟩))
    · obtain rfl := activeStage offered (by decide)
      obtain ⟨typed, moving⟩ := Discipline.showsThinking thinks
      have moved := weightUpdate s c klient (Function.update s.toKlient c rest) s.toServer
      have before : klientLoad (s.klient c) = 1 := klientLoadOf listens (by simp [receiving])
      have after : klientLoad klient = 1 := klientLoadOf (by simp [moving]) (by simp [moving])
      exact .goes board ⟨servingNext .thinking loose.server rfl (by decide) (by decide) (by decide) board,
        takingTurn (fun d apart => ⟨Function.update_of_ne apart .., Function.update_of_ne apart ..⟩)
          id loose.client (.inr (.inr ⟨up, by simpa using thinks⟩))⟩ listens (Token.stays rfl) rfl
        (fun _ => rfl) (by omega)
    · exact receivesExits loose listens exited
    · exact receivesColour loose colour receiving
        (.inr (.inl ⟨closed, by simpa using receiving, by simpa using ended⟩))

theorem outcomeTypes {q : Coordinates} (loose : Loose randNum place board s)
    (next' : act s (.types c q) = some (made,t)) :
    Outcome randNum place board s (.types c q) made t := by
  obtain ⟨turn, klient, scanned, rfl, rfl⟩ := klientScanned next'
  have moved := weightUpdate s c klient s.toKlient s.toServer
  obtain ⟨up, shows'⟩ : ∃ up, Shows (choosePlayersPawns randNum c) board (s.klient c)
      (place.stage c) (s.toKlient c) up := by
    rcases loose.client c with exited | ⟨_, receiving, _⟩ | shows'
    · simp [Klient.scan, (show (s.klient c).phase = .exited from exited)] at scanned
    · simp [Klient.scan, receiving] at scanned
    · exact shows'
  obtain ⟨thinking, outcome⟩ := clientScans shows' scanned
  obtain rfl := activeStage thinking (by decide)
  obtain ⟨typed, moving⟩ := Discipline.showsThinking (stageSelf c .thinking ▸ shows')
  have before : klientLoad (s.klient c) = 1 := klientLoadOf (by simp [moving]) (by simp [moving])
  rcases outcome with ⟨rfl, thinks⟩ | ⟨turn, rfl, held, returns, moves'⟩
  · obtain ⟨typed', moving'⟩ := Discipline.showsThinking thinks
    have after : klientLoad klient = 1 := klientLoadOf (by simp [moving']) (by simp [moving'])
    refine .stays ⟨loose.server, takingTurn
      (fun d apart => ⟨Function.update_of_ne apart .., rfl⟩) id loose.client ?_⟩ rfl
      (by simp only [silent]; simp; omega)
    exact .inr (.inr ⟨up, by simpa using thinks⟩)
  · have sending := Discipline.showsMoved moves'
    have after : klientLoad klient = 1 := klientLoadOf (by simp [sending]) (by simp [sending])
    refine .goes turn.board ⟨servingNext .moved loose.server rfl (by decide) (by decide) (by decide) _,
      takingTurn (fun d apart => ⟨Function.update_of_ne apart .., rfl⟩) id loose.client
        (.inr (.inr ⟨up, by simpa using moves'⟩))⟩ ?_ (.cons ⟨rfl, held, ?_, rfl⟩ (.nil _)) rfl
      (fun quiet => Bool.noConfusion quiet) (by omega)
    · intro gone
      rw [(show (s.klient c).phase = .exited from gone)] at moving
      cases moving
    · rw [← held] at returns
      exact returns

theorem movedSends {colour : Byte} {k next : Klient.State} {down up bytes : List Byte}
    (shows' : Shows colour board k (some .moved) down up) (sent : Klient.send k = some (bytes,next)) :
    bytes = boardFrame board := by
  cases shows' with
  | moved phase mine held =>
    simp only [Klient.send, phase] at sent
    cases Option.some.inj sent
    rw [held]

theorem outcomeSent (loose : Loose randNum place board s)
    (next' : act s (.sends c) = some (made,t)) :
    Outcome randNum place board s (.sends c) made t := by
  obtain ⟨bytes, klient, sent, rfl, rfl⟩ := klientSent next'
  have moved := weightUpdate s c klient s.toKlient
    (Function.update s.toServer c (s.toServer c ++ bytes))
  obtain ⟨up, shows'⟩ : ∃ up, Shows (choosePlayersPawns randNum c) board (s.klient c)
      (place.stage c) (s.toKlient c) up := by
    rcases loose.client c with exited | ⟨_, receiving, _⟩ | shows'
    · simp [Klient.send, (show (s.klient c).phase = .exited from exited)] at sent
    · simp [Klient.send, receiving] at sent
    · exact shows'
  obtain ⟨stage, returned⟩ := clientSends shows' sent
  obtain rfl := activeStage stage (by decide)
  rw [stageSelf] at shows'
  have frame := movedSends shows' sent
  have sending := Discipline.showsMoved shows'
  have listens : klient.phase = .receiving := by
    simp only [Klient.send, sending] at sent
    cases Option.some.inj sent
    rfl
  have before : klientLoad (s.klient c) = 1 := klientLoadOf (by simp [sending]) (by simp [sending])
  have after : klientLoad klient = 1 := klientLoadOf (by simp [listens]) (by simp [listens])
  refine .goes board ⟨?_, takingTurn (fun d apart => ⟨Function.update_of_ne apart .., rfl⟩) id
    loose.client (.inr (.inr ⟨_, by simpa using returned⟩))⟩ ?_ (Token.stays rfl) rfl (fun _ => rfl) (by omega)
  · rcases loose.server with exited | ⟨phase, drawn, _, empty⟩
    · exact .inl exited
    · refine .inr ⟨phase, drawn, notAtServer (by decide), fun d => ?_⟩
      have none := empty d
      by_cases same : d = c
      · subst same
        rw [stageSelf, if_neg (by decide)] at none
        simp [next, none, frame]
      · simpa [next, same] using none
  · intro gone
    rw [(show (s.klient c).phase = .exited from gone)] at sending
    cases sending

theorem outcomeStops (loose : Loose randNum place board s)
    (next' : act s (.stops party) = some (made,t)) :
    Outcome randNum place board s (.stops party) made t := by
  obtain ⟨running, rfl, rfl⟩ := stopped next'
  cases party with
  | server =>
    have lighter := weightServer running {s.server with phase := .exited}
      s.toKlient s.toServer
    exact .stays ⟨.inl rfl, fun d => takingFrame (loose.client d) rfl rfl (fun _ => rfl)⟩ rfl
      (Nat.le_of_succ_le (Nat.le_of_eq lighter))
  | client c =>
    have lighter := weightUpdate s c {s.klient c with phase := .exited} s.toKlient s.toServer
    refine .stays ⟨loose.server, fun d => ?_⟩ rfl (Nat.le_of_add_right_le (Nat.le_of_eq lighter))
    by_cases mine : d = c
    · subst mine
      exact .inl (by simp [Exited, stop])
    · exact takingFrame (loose.client d) (Function.update_of_ne mine ..) rfl id

theorem outcome {a : Action} (clean : ∀ i j, board i j ≠ nul) (loose : Loose randNum place board s)
    (next' : act s a = some (made,t)) : Outcome randNum place board s a made t := by
  cases a with
  | serverSends => exact outcomeSends loose next'
  | serverReceives size => exact outcomeTakes clean loose next'
  | receives c size => exact outcomeReceives clean loose next'
  | types c q => exact outcomeTypes loose next'
  | sends c => exact outcomeSent loose next'
  | stops party => exact outcomeStops loose next'

end Steps

section Runs
variable {randNum : Nat} {labels : List (Action × List Move)} {s : State}

theorem simulation : Transition.Simulation (unreliable randNum) (centralised randNum)
    (fun labels s game => Run (centralised randNum) (moves labels) game ∧
      ∃ place, Loose randNum place game.1 s ∧ game.2 = place.toMove) Prod.snd where
  start := fun s first =>
    ⟨(initializeBoard,.one), rfl, .start rfl, .colours .one, connectedLoose first, rfl⟩
  step := by
    rintro labels s ⟨a, made⟩ t ⟨board, client⟩ ⟨run, place, loose, rfl⟩ happened
    have clean := fun i j => gameCellNotNul ((centralisedWellFormed run).cells i j)
    obtain ⟨place', board', loose', steps⟩ : ∃ place' board', Loose randNum place' board' t ∧
        Moves randNum place board made place' board' := by
      cases outcome clean loose happened with
      | stays loose none =>
        obtain rfl : made = [] := none
        exact ⟨place, board, loose, Token.stays rfl⟩
      | goes board' loose _ moves => exact ⟨_, board', loose, moves⟩
    refine ⟨(board',place'.toMove), steps, ?_, place', loose', rfl⟩
    have longer := Transition.runSteps run steps
    simpa [moves] using longer

theorem reachableLoose (run : Run (unreliable randNum) labels s) :
    ∃ place, Run (centralised randNum) (moves labels) (latest (moves labels),place.toMove) ∧
      Loose randNum place (latest (moves labels)) s ∧ toMove (moves labels) = place.toMove := by
  obtain ⟨game, _, run', place, loose, mover⟩ := Transition.simulatedRun simulation run
  obtain rfl := centralisedState run'
  refine ⟨place, ?_, loose, mover⟩
  rw [← mover]
  exact run'

section Exits
variable {s t : State} {made : List Move} {c d : Client} {party : Party}

theorem klientUpdated {k : Klient.State} (gone : (s.klient d).phase = .exited)
    (busy : (s.klient c).phase ≠ .exited) : (Function.update s.klient c k d).phase = .exited := by
  have apart : d ≠ c := by
    rintro rfl
    exact busy gone
  rw [Function.update_of_ne apart]
  exact gone

theorem scanRunning {k next : Klient.State} {q : Coordinates} {turn : Option Turn}
    (scanned : Klient.scan k q = some (turn,next)) : k.phase ≠ .exited := by
  intro gone
  simp [Klient.scan, gone] at scanned

theorem sendRunning {k next : Klient.State} {bytes : List Byte}
    (sent : Klient.send k = some (bytes,next)) : k.phase ≠ .exited := by
  intro gone
  simp [Klient.send, gone] at sent

theorem receiveRunning {k next : Klient.State} {chunk : Chunk}
    (received : Klient.receive k chunk = some next) : k.phase ≠ .exited := by
  intro gone
  simp [Klient.receive, gone] at received

theorem staysExited {a : Action} (next : act s a = some (made,t)) (gone : Exited s party) :
    Exited t party := by
  cases a with
  | serverSends =>
    obtain ⟨_, _, server, sent, rfl, rfl⟩ := serverSent next
    cases party with
    | server => simp [Server.send, (show s.server.phase = .exited from gone)] at sent
    | client d => exact gone
  | serverReceives size =>
    obtain ⟨_, _, _, _, server, phase, _, _, rfl, rfl⟩ := serverReceived next
    cases party with
    | server => rw [(show s.server.phase = .exited from gone)] at phase; cases phase
    | client d => exact gone
  | receives c size =>
    obtain ⟨_, _, klient, _, received, rfl, rfl⟩ := klientReceived next
    cases party with
    | server => exact gone
    | client d => exact klientUpdated gone (receiveRunning received)
  | types c q =>
    obtain ⟨_, klient, scanned, rfl, rfl⟩ := klientScanned next
    cases party with
    | server => exact gone
    | client d => exact klientUpdated gone (scanRunning scanned)
  | sends c =>
    obtain ⟨_, klient, sent, rfl, rfl⟩ := klientSent next
    cases party with
    | server => exact gone
    | client d => exact klientUpdated gone (sendRunning sent)
  | stops other =>
    obtain ⟨running, rfl, rfl⟩ := stopped next
    cases party with
    | server =>
      cases other with
      | server => exact absurd gone running
      | client => exact gone
    | client d =>
      cases other with
      | server => exact gone
      | client c => exact klientUpdated gone running

end Exits

section Reliable
variable {place : Place} {board : Board} {t : State} {made : List Move} {c : Client} {size : Nat}

theorem stopExited (s : State) (party : Party) : Exited (stop s party) party := by
  cases party <;> simp [Exited, stop]

theorem wholeTakes (holds : Holds randNum place board s)
    (next : act s (.serverReceives size) = some (made,t)) (running : ¬ Exited t .server) :
    Session.act s .serverReceives = some (made,t) := by
  obtain ⟨c, chunk, rest, events, server, phase, taken, received, rfl, rfl⟩ := serverReceived next
  have accepted : ¬ Refused chunk := by
    intro refused
    obtain ⟨next', received', exited, _⟩ := Server.receiveRefused phase refused
    cases Option.some.inj (received.symm.trans received')
    exact running exited
  have whole : recv bufferSize (Nat.le_refl _) (s.toServer c) = some (chunk,rest) := by
    rcases partTaken taken with ⟨_, _, bytes, _⟩ | ⟨occupied, _⟩
    · exact absurd (emptyRefused bytes) accepted
    · rw [(boardTaken (holds.shown c) occupied).2.1] at taken ⊢
      obtain ⟨bytes, rfl⟩ := (partFrame taken).resolve_right accepted
      exact frameWhole bytes
  simp only [Session.act, phase, whole, received, Option.bind_eq_bind, Option.bind_some]

theorem wholeReceives (holds : Holds randNum place board s)
    (next : act s (.receives c size) = some (made,t)) (running : ¬ Exited t (.client c)) :
    Session.act s (.receives c) = some (made,t) := by
  obtain ⟨chunk, rest, klient, taken, received, rfl, rfl⟩ := klientReceived next
  have open' : ¬ Exited s .server := fun exited => SharedBoard.holdsNotFailed holds (.serverExited exited)
  have accepted (phase : (s.klient c).phase = .receiving) : ¬ Refused chunk := by
    intro refused
    refine running ?_
    have exited := receivedRefused phase refused received
    simpa [Exited] using exited
  have whole : recv (Klient.wanted (s.klient c)) (Klient.wantedBounded _) (s.toKlient c) =
      some (chunk,rest) := by
    rcases partTaken taken with ⟨_, closed, _⟩ | ⟨occupied, some', small, bytes, left⟩
    · exact absurd closed open'
    · by_cases colour : (s.klient c).phase = .colour
      · have one : Klient.wanted (s.klient c) = 1 := if_pos colour
        obtain rfl : size = Klient.wanted (s.klient c) := by omega
        exact partWhole occupied bytes left
      · obtain ⟨phase, frame⟩ := showsFrame (holds.shown c) colour occupied
        have wanted : Klient.wanted (s.klient c) = bufferSize := if_neg colour
        rw [frame] at taken ⊢
        obtain ⟨bytes, rfl⟩ := (partFrame taken).resolve_right (accepted phase)
        simp only [wanted]
        exact frameWhole bytes
  simp only [Session.act, whole, received, Option.bind_eq_bind, Option.bind_some]

theorem wholeStep {a : Action} (holds : Holds randNum place board s)
    (next : act s a = some (made,t)) (running : ∀ party, ¬ Exited t party) :
    ∃ b, Session.act s b = some (made,t) := by
  cases a with
  | serverSends => exact ⟨.serverSends, next⟩
  | serverReceives size => exact ⟨_, wholeTakes holds next (running .server)⟩
  | receives c size => exact ⟨_, wholeReceives holds next (running (.client c))⟩
  | types c q => exact ⟨.types c q, next⟩
  | sends c => exact ⟨.sends c, next⟩
  | stops party =>
    obtain ⟨_, rfl, rfl⟩ := stopped next
    exact absurd (stopExited s party) (running party)

theorem unbroken (run : Run (unreliable randNum) labels s) (running : ∀ party, ¬ Exited s party) :
    ∃ labels', Run (distributed randNum) labels' s ∧ moves labels' = moves labels := by
  induction run with
  | start first => exact ⟨[], .start first, rfl⟩
  | @step labels s l t before next ih =>
    obtain ⟨a, made⟩ := l
    have happened : act s a = some (made,t) := next
    obtain ⟨labels', run', same⟩ := ih (fun party gone => running party (staysExited happened gone))
    obtain ⟨place, _, holds, _⟩ := reachableHolds run'
    obtain ⟨b, step⟩ := wholeStep holds happened running
    have happened' : (distributed randNum).step s (b,made) t := step
    refine ⟨labels' ++ [(b,made)], .step run' happened', ?_⟩
    simpa [moves] using same

theorem reliableStep {b : Session.Action} (next : Session.act s b = some (made,t)) :
    ∃ a, act s a = some (made,t) := by
  cases b with
  | serverSends => exact ⟨.serverSends, next⟩
  | types c q => exact ⟨.types c q, next⟩
  | sends c => exact ⟨.sends c, next⟩
  | serverReceives =>
    obtain ⟨c, chunk, rest, events, server, phase, taken, received, rfl, rfl⟩ :=
      Session.serverReceived next
    refine ⟨.serverReceives bufferSize, ?_⟩
    have part : recvPart bufferSize (Nat.le_refl _) (Exited s (.client c)) (s.toServer c) bufferSize =
        some (chunk,rest) := wholePart (by decide) taken
    simp only [act, phase, part, received, Option.bind_eq_bind, Option.bind_some]
  | receives c =>
    obtain ⟨chunk, rest, klient, taken, received, rfl, rfl⟩ := Session.klientReceived next
    refine ⟨.receives c (Klient.wanted (s.klient c)), ?_⟩
    have some' : 0 < Klient.wanted (s.klient c) := by
      unfold Klient.wanted
      split <;> decide
    simp only [act, klientRecv, wholePart some' taken, received, Option.bind_eq_bind, Option.bind_some]

end Reliable

theorem reliable {labels : List (Session.Action × List Move)}
    (run : Run (distributed randNum) labels s) :
    ∃ labels', Run (unreliable randNum) labels' s ∧ moves labels' = moves labels := by
  induction run with
  | start first => exact ⟨[], .start first, rfl⟩
  | @step labels s l t before next ih =>
    obtain ⟨b, made⟩ := l
    have happened : Session.act s b = some (made,t) := next
    obtain ⟨labels', run', same⟩ := ih
    obtain ⟨a, step⟩ := reliableStep happened
    have happened' : (unreliable randNum).step s (a,made) t := step
    refine ⟨labels' ++ [(a,made)], .step run' happened', ?_⟩
    simpa [moves] using same

inductive Undefined (s : State) : Prop where
  | server (fault) (phase : s.server.phase = .undefined fault)
  | klient (c fault) (phase : (s.klient c).phase = .undefined fault)

theorem looseDefined {place : Place} {board : Board} (loose : Loose randNum place board s) :
    ¬ Undefined s := by
  intro undefined
  cases undefined with
  | server fault phase =>
    rcases loose.server with exited | ⟨phase', _⟩
    · rw [(show s.server.phase = .exited from exited)] at phase
      cases phase
    · exact (SharedBoard.phaseRunning place).2 fault (phase'.symm.trans phase)
  | klient c fault phase =>
    rcases loose.client c with exited | ⟨_, receiving, _⟩ | ⟨up, shows'⟩
    · rw [(show (s.klient c).phase = .exited from exited)] at phase
      cases phase
    · rw [receiving] at phase
      cases phase
    · exact (SharedBoard.showsNotFailed shows').2 fault phase

theorem looseMoving {place : Place} {board : Board} {c : Client} {typed : List Coordinates}
    (loose : Loose randNum place board s) (moving : (s.klient c).phase = .moving typed) :
    (s.klient c).board = board ∧ (s.klient c).playerChar = choosePlayersPawns randNum c ∧
      c = place.toMove := by
  rcases loose.client c with exited | ⟨_, receiving, _⟩ | ⟨up, shows'⟩
  · rw [(show (s.klient c).phase = .exited from exited)] at moving
    cases moving
  · rw [receiving] at moving
    cases moving
  · obtain ⟨thinking, held⟩ := SharedBoard.showsMoving shows' moving
    have mine := (Discipline.showsColour shows').1 (by simp [moving])
    obtain rfl := activeStage thinking (by decide)
    exact ⟨held, mine, rfl⟩

theorem failStop (run : Run (unreliable randNum) labels s) :
    (∃ game, Run (centralised randNum) (moves labels) game) ∧
    (∀ c typed, (s.klient c).phase = .moving typed →
      (s.klient c).board = latest (moves labels) ∧
        (s.klient c).playerChar = choosePlayersPawns randNum c ∧ c = toMove (moves labels)) ∧
    ¬ Undefined s ∧
    ((∀ party, ¬ Exited s party) →
      ∃ labels', Run (distributed randNum) labels' s ∧ moves labels' = moves labels) := by
  obtain ⟨place, run', loose, mover⟩ := reachableLoose run
  refine ⟨⟨_, run'⟩, fun c typed moving => ?_, looseDefined loose, unbroken run⟩
  rw [mover]
  exact looseMoving loose moving

def cutActions : List Action :=
  [.serverSends,.serverSends,.receives .one 1,.serverSends,.receives .one 30]

theorem failStopCut : ∃ labels s, Transition.doAll act connected cutActions = some (labels,s) ∧
    Exited s (.client .one) ∧ ¬ Undefined s := by
  obtain ⟨labels, s, happen⟩ : ∃ labels s,
      Transition.doAll act connected cutActions = some (labels,s) := ⟨_, _, rfl⟩
  have exits : (Transition.doAll act connected cutActions).map
      (fun r => decide (Exited r.2 (.client .one))) = some true := rfl
  rw [happen, Option.map_some, Option.some_inj, decide_eq_true_eq] at exits
  have steps := Transition.doAllSteps (M := unreliable 0) (fun _ _ _ _ happened => happened) happen
  exact ⟨labels, s, happen, exits,
    (failStop (Transition.runSteps (.start connectedStart) steps)).2.2.1⟩

end Runs
end Warcaby.Unreliable
