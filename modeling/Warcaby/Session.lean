import Warcaby.Klient
import Warcaby.Play
import Warcaby.Server
import Mathlib.Logic.Function.Basic

/-! The server, two clients and the four byte streams between them. A `send` appends
its whole message at once; any party that can go on may be the next to do so. -/
namespace Warcaby.Session
open Tlv MakeMove
open Server (Client choosePlayersPawns)
open Transition (Machine Run doAll doAllSteps)

structure State where
  server : Server.State
  klient : Client → Klient.State
  toKlient : Client → List Byte
  toServer : Client → List Byte

inductive Action where
  | serverSends
  | serverReceives
  | receives (c : Client)
  | types (c : Client) (q : Coordinates)
  | sends (c : Client)
  deriving DecidableEq, Repr

/- A call of `make_move` that returned: who made it, on what, and with what. -/
structure Move where
  client : Client
  before : Board
  inputs : List Coordinates
  turn : Turn

def typedSoFar (k : Klient.State) : List Coordinates :=
  match k.phase with
  | .moving typed => typed
  | _ => []

def move (c : Client) (k : Klient.State) (q : Coordinates) (turn : Turn) : Move :=
  ⟨c,k.board,typedSoFar k ++ [q],turn⟩

def act (s : State) : Action → Option (List Move × State)
  | .serverSends => do
    let (c,bytes,next) ← Server.send s.server
    some ([],{s with
      server := next, toKlient := Function.update s.toKlient c (s.toKlient c ++ bytes)})
  | .serverReceives =>
    match s.server.phase with
    | .receiving c => do
      let (chunk,rest) ← recv bufferSize (Nat.le_refl _) (s.toServer c)
      let (_,next) ← Server.receive s.server chunk
      some ([],{s with server := next, toServer := Function.update s.toServer c rest})
    | _ => none
  | .receives c => do
    let (chunk,rest) ← recv (Klient.wanted (s.klient c)) (Klient.wantedBounded _) (s.toKlient c)
    let next ← Klient.receive (s.klient c) chunk
    some ([],{s with
      klient := Function.update s.klient c next, toKlient := Function.update s.toKlient c rest})
  | .types c q => do
    let (turn,next) ← Klient.scan (s.klient c) q
    some (turn.toList.map (move c (s.klient c) q),{s with
      klient := Function.update s.klient c next})
  | .sends c => do
    let (bytes,next) ← Klient.send (s.klient c)
    some ([],{s with
      klient := Function.update s.klient c next,
      toServer := Function.update s.toServer c (s.toServer c ++ bytes)})

section Inversion
variable {s t : State} {made : List Move} {c : Client} {q : Coordinates}

theorem serverSent (next : act s .serverSends = some (made,t)) :
    ∃ c bytes server, Server.send s.server = some (c,bytes,server) ∧ made = [] ∧
      t = {s with
        server := server, toKlient := Function.update s.toKlient c (s.toKlient c ++ bytes)} := by
  simp only [act, Option.bind_eq_bind, Option.bind_eq_some_iff] at next
  obtain ⟨⟨c, bytes, server⟩, sent, same⟩ := next
  cases Option.some.inj same
  exact ⟨c, bytes, server, sent, rfl, rfl⟩

theorem serverReceived (next : act s .serverReceives = some (made,t)) :
    ∃ c chunk rest events server, s.server.phase = .receiving c ∧
      recv bufferSize (Nat.le_refl _) (s.toServer c) = some (chunk,rest) ∧
      Server.receive s.server chunk = some (events,server) ∧ made = [] ∧
      t = {s with server := server, toServer := Function.update s.toServer c rest} := by
  simp only [act] at next
  split at next <;> try contradiction
  rename_i c phase
  simp only [Option.bind_eq_bind, Option.bind_eq_some_iff] at next
  obtain ⟨⟨chunk, rest⟩, taken, ⟨events, server⟩, received, same⟩ := next
  cases Option.some.inj same
  exact ⟨c, chunk, rest, events, server, phase, taken, received, rfl, rfl⟩

theorem klientReceived (next : act s (.receives c) = some (made,t)) :
    ∃ chunk rest klient,
      recv (Klient.wanted (s.klient c)) (Klient.wantedBounded _) (s.toKlient c) = some (chunk,rest) ∧
      Klient.receive (s.klient c) chunk = some klient ∧ made = [] ∧
      t = {s with
        klient := Function.update s.klient c klient, toKlient := Function.update s.toKlient c rest} := by
  simp only [act, Option.bind_eq_bind, Option.bind_eq_some_iff] at next
  obtain ⟨⟨chunk, rest⟩, taken, klient, received, same⟩ := next
  cases Option.some.inj same
  exact ⟨chunk, rest, klient, taken, received, rfl, rfl⟩

theorem klientScanned (next : act s (.types c q) = some (made,t)) :
    ∃ turn klient, Klient.scan (s.klient c) q = some (turn,klient) ∧
      made = turn.toList.map (move c (s.klient c) q) ∧
      t = {s with klient := Function.update s.klient c klient} := by
  simp only [act, Option.bind_eq_bind, Option.bind_eq_some_iff] at next
  obtain ⟨⟨turn, klient⟩, scanned, same⟩ := next
  cases Option.some.inj same
  exact ⟨turn, klient, scanned, rfl, rfl⟩

theorem klientSent (next : act s (.sends c) = some (made,t)) :
    ∃ bytes klient, Klient.send (s.klient c) = some (bytes,klient) ∧ made = [] ∧
      t = {s with
        klient := Function.update s.klient c klient,
        toServer := Function.update s.toServer c (s.toServer c ++ bytes)} := by
  simp only [act, Option.bind_eq_bind, Option.bind_eq_some_iff] at next
  obtain ⟨⟨bytes, klient⟩, sent, same⟩ := next
  cases Option.some.inj same
  exact ⟨bytes, klient, sent, rfl, rfl⟩

end Inversion

/- Both clients connected, nothing sent: `player_char` and the buffers hold anything. -/
structure Connected (randNum : Nat) (s : State) : Prop where
  server : s.server = Server.accepted randNum
  klients : ∀ c, (s.klient c).phase = .colour ∧ (s.klient c).board = initializeBoard
  quiet : ∀ c, s.toKlient c = [] ∧ s.toServer c = []

def connected : State where
  server := Server.accepted 0
  klient := fun _ => ⟨.colour,initializeBoard,nul,[]⟩
  toKlient := fun _ => []
  toServer := fun _ => []

theorem connectedStart : Connected 0 connected := ⟨rfl,fun _ => ⟨rfl,rfl⟩,fun _ => ⟨rfl,rfl⟩⟩

def distributed (randNum : Nat) : Machine State (Action × List Move) where
  start := Connected randNum
  step s label t := act s label.1 = some (label.2,t)

theorem playedRun {γ : Type} (view : List (Action × List Move) → State → γ) (actions : List Action)
    (shown : γ) (plays : (doAll act connected actions).map (fun r => view r.1 r.2) = some shown) :
    ∃ labels s, Run (distributed 0) labels s ∧ view labels s = shown := by
  obtain ⟨⟨labels, s⟩, happen, same⟩ := Option.map_eq_some_iff.mp plays
  have steps := doAllSteps (M := distributed 0) (fun _ _ _ _ does => does) happen
  exact ⟨labels, s, Transition.runSteps (.start connectedStart) steps, same⟩

def moves {α : Type} (labels : List (α × List Move)) : List Move := labels.flatMap Prod.snd

theorem movesAppend {α : Type} (labels more : List (α × List Move)) :
    moves (labels ++ more) = moves labels ++ moves more := List.flatMap_append

/- The same game on one board: client 1 begins, and they alternate. -/
def centralised (randNum : Nat) : Machine (Board × Client) Move where
  start game := game = (initializeBoard,.one)
  step game m next := m.client = game.2 ∧ m.before = game.1 ∧
    makeMove m.before (choosePlayersPawns randNum m.client) m.inputs = .ok (some m.turn) ∧
    next = (m.turn.board,game.2.other)

def latest (done : List Move) : Board :=
  (done.getLast?.map (fun m => m.turn.board)).getD initializeBoard

def toMove (done : List Move) : Client := (done.getLast?.map (fun m => m.client.other)).getD .one

section Centralised
variable {randNum : Nat} {done : List Move} {game : Board × Client}

def assigned (randNum : Nat) : Client → Colour
  | .one => if randNum = 0 then .x else .o
  | .two => if randNum = 0 then .o else .x

theorem assignedMan (randNum : Nat) (c : Client) :
    choosePlayersPawns randNum c = (assigned randNum c).man := by
  by_cases zero : randNum = 0 <;> cases c <;>
    simp [choosePlayersPawns, Server.player1, Server.player2, assigned, zero, Colour.man]

theorem assignedOther (randNum : Nat) (c : Client) :
    assigned randNum c.other = (assigned randNum c).other := by
  by_cases zero : randNum = 0 <;> cases c <;> simp [assigned, zero, Client.other, Colour.other]

def call (randNum : Nat) (m : Move) : Play.Call :=
  ⟨assigned randNum m.client,m.before,m.inputs,m.turn⟩

theorem centralisedPlays : Transition.Simulation (centralised randNum) Play.play
    (fun _ game board => board = game.1) (fun m => [call randNum m]) where
  start := fun _ first => ⟨_, rfl, by rw [first]⟩
  step := by
    rintro _ game m next board same ⟨_, before, returns, rfl⟩
    have here : m.before = board := before.trans same.symm
    rw [assignedMan] at returns
    exact ⟨m.turn.board, .cons ⟨here, returns, rfl⟩ (.nil _), rfl⟩

theorem centralisedGame (run : Run (centralised randNum) done game) :
    Run Play.play (done.map (call randNum)) game.1 := by
  obtain ⟨board, plays, rfl⟩ := Transition.simulatedRun centralisedPlays run
  rwa [← List.map_eq_flatMap] at plays

theorem centralisedWellFormed (run : Run (centralised randNum) done game) : WellFormed game.1 :=
  Play.reachableWellFormed ⟨_, centralisedGame run⟩

theorem centralisedState (run : Run (centralised randNum) done game) :
    game = (latest done,toMove done) := by
  cases run with
  | start first => exact first
  | step before next =>
    obtain ⟨client, _, _, rfl⟩ := next
    simp [latest, toMove, client]

end Centralised
end Warcaby.Session
