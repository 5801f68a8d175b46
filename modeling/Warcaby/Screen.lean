import Warcaby.Replay
import Warcaby.Terminal

/-! The terminals during a game. A player sees the address, the colour, then for each turn the board,
every notice of `make_move` and the new board; the bytes alone tell the whole game. -/
namespace Warcaby.Screen
open MakeMove Session Terminal
open Iteration (attempts printed)
open Replay (Waits)
open Server (Client choosePlayersPawns)
open Token (Shows Holds Place Stage stageSelf stageOther)
open Transition (Run)

section Client
variable {address : Client → Address} {randNum : Nat} {labels : List (Action × List Move)} {w : Watched}
  {s t : State} {a : Action} {made : List Move} {c : Client} {k : Klient.State}

def callItems (m : Move) : List Item :=
  .board m.before :: notices m.turn.output ++ [.board m.turn.board]

def callsShown (c : Client) (done : List Move) : List Item :=
  done.flatMap (fun m => if m.client = c then callItems m else [])

def asked (k : Klient.State) (typed : List Coordinates) : List Notice :=
  match attempts k.board k.playerChar typed with
  | .ok log => printed log ++ [.prompt]
  | .error _ => []

def pending (k : Klient.State) : List Item :=
  match k.phase with
  | .moving typed => .board k.board :: notices (asked k typed)
  | _ => []

def greeting (k : Klient.State) : List Item :=
  if k.phase = .colour then [] else [.colour k.playerChar]

theorem callsAppend (c : Client) (done more : List Move) :
    callsShown c (done ++ more) = callsShown c done ++ callsShown c more := List.flatMap_append

theorem pendingIdle (idle : ∀ typed, k.phase ≠ .moving typed) : pending k = [] := by
  unfold pending
  split
  · rename_i typed moving
    exact absurd moving (idle typed)
  · rfl

theorem receivedShows {chunk : Tlv.Chunk} {next : Klient.State}
    (received : Klient.receive k chunk = some next) :
    (k.phase = .colour ∧ next.phase = .receiving ∧ receivedPrints k next = greeting next) ∨
    (k.phase = .receiving ∧ next.phase ≠ .colour ∧ next.phase ≠ .sending ∧
      greeting next = greeting k ∧ receivedPrints k next = pending next) := by
  unfold Klient.receive at received
  split at received
  · rename_i phase
    cases Option.some.inj received
    exact .inl ⟨phase, rfl, by simp [receivedPrints, phase, greeting]⟩
  · rename_i phase
    refine .inr ⟨phase, ?_⟩
    dsimp only at received
    split at received <;> cases Option.some.inj received <;>
      simp [receivedPrints, phase, greeting, pending, asked, attempts, printed, notices]
  · cases received

theorem scannedShows {next : Klient.State} {turn : Option MakeMove.Turn} {q : Coordinates}
    (waits : Waits k) (scanned : Klient.scan k q = some (turn,next)) :
    next.phase ≠ .colour ∧ greeting next = greeting k ∧
      pending k ++ scannedPrints k next q =
        callsShown c (turn.toList.map (move c k q)) ++ pending next := by
  cases phase : k.phase with
  | moving typed =>
    have soFar : typedSoFar k = typed := by simp only [typedSoFar, phase]
    rw [Waits, soFar] at waits
    obtain ⟨log, r, rest, before, prompts, after, output⟩ := attemptsMore waits q
    have answered : answer k q = rest := by
      simp [answer, soFar, after, prompts]
    have longer : printed (log ++ [⟨k.board,q,r⟩]) = printed log ++ .prompt :: rest := by
      simp [printed, prompts]
    have shown : pending k = .board k.board :: notices (printed log ++ [.prompt]) := by
      simp only [pending, phase, asked, before]
    rcases Klient.scanCases (q := q) phase with ⟨_, same⟩ | ⟨t, returns, same⟩
    · cases Option.some.inj (scanned.symm.trans same)
      refine ⟨by simp, by simp [greeting, phase], ?_⟩
      rw [shown, scannedPrints, answered]
      simp [pending, asked, after, longer, notices, callsShown]
    · cases Option.some.inj (scanned.symm.trans same)
      refine ⟨by simp, by simp [greeting, phase], ?_⟩
      rw [shown, scannedPrints, answered]
      simp [pending, callsShown, callItems, move, output t returns, longer, notices]
  | _ => simp [Klient.scan, phase] at scanned

theorem screenStep {shown : List Item} (waits : ∀ c, Waits (s.klient c))
    (next : act s a = some (made,t)) (c : Client)
    (fresh : (s.klient c).phase = .colour → shown = []) :
    greeting (s.klient c) ++ shown ++ pending (s.klient c) ++ klientPrints s t c a =
      greeting (t.klient c) ++ (shown ++ callsShown c made) ++ pending (t.klient c) ∧
    ((t.klient c).phase = .colour → shown ++ callsShown c made = []) := by
  cases a with
  | serverSends =>
    obtain ⟨_, _, _, _, rfl, rfl⟩ := serverSent next
    simpa [klientPrints, callsShown] using fresh
  | serverReceives =>
    obtain ⟨_, _, _, _, _, _, _, _, rfl, rfl⟩ := serverReceived next
    simpa [klientPrints, callsShown] using fresh
  | receives d =>
    obtain ⟨_, _, klient, _, received, rfl, rfl⟩ := klientReceived next
    by_cases same : d = c
    · subst same
      simp only [klientPrints, if_true, Function.update_self, callsShown, List.flatMap_nil, List.append_nil]
      rcases receivedShows received with ⟨colour, receiving, prints⟩ | ⟨receiving, asked, _, same, prints⟩
      · have none : pending (s.klient d) = [] := pendingIdle (by simp [colour])
        have later : pending klient = [] := pendingIdle (by simp [receiving])
        have before : greeting (s.klient d) = [] := if_pos colour
        rw [none, later, before, fresh colour, prints]
        exact ⟨by simp, fun _ => rfl⟩
      · have none : pending (s.klient d) = [] := pendingIdle (by simp [receiving])
        rw [none, prints, same, List.append_nil]
        exact ⟨rfl, fun first => absurd first asked⟩
    · have apart : c ≠ d := fun other => same other.symm
      simpa [klientPrints, callsShown, same, apart] using fresh
  | types d q =>
    obtain ⟨turn, klient, scanned, rfl, rfl⟩ := klientScanned next
    by_cases same : d = c
    · subst same
      obtain ⟨asked, greeted, prints⟩ := scannedShows (c := d) (waits d) scanned
      simp only [klientPrints, if_true, Function.update_self]
      refine ⟨?_, fun first => absurd first asked⟩
      rw [greeted, List.append_assoc, prints]
      simp only [List.append_assoc]
    · have apart : c ≠ d := fun other => same other.symm
      cases turn <;> simpa [klientPrints, callsShown, same, apart, move] using fresh
  | sends d =>
    obtain ⟨_, _, sent, rfl, rfl⟩ := klientSent next
    by_cases same : c = d
    · subst same
      simp only [klientPrints, Function.update_self, callsShown, List.flatMap_nil, List.append_nil]
      have sending : (s.klient c).phase = .sending := by
        cases phase : (s.klient c).phase <;> simp [Klient.send, phase] at sent ⊢
      simp only [Klient.send, sending] at sent
      cases Option.some.inj sent
      simp [greeting, pending, sending]
    · simpa [klientPrints, callsShown, same] using fresh

theorem screenRun (run : Run (watched address randNum) labels w) (c : Client) :
    w.screen c = .connected (address c) :: (greeting (w.session.klient c) ++ callsShown c (moves labels) ++
      pending (w.session.klient c)) ∧
    ((w.session.klient c).phase = .colour → callsShown c (moves labels) = []) := by
  induction run with
  | start first =>
    have phase := (first.1.klients c).1
    simp [first.2.2 c, greeting, pending, phase, callsShown, moves]
  | @step labels w l u before next ih =>
    obtain ⟨shown, fresh⟩ := ih
    obtain ⟨happened, _, prints⟩ := next
    have waits := (Replay.accountRun (sessionRun before)).waits
    have law := screenStep waits happened c fresh
    have longer : moves (labels ++ [l]) = moves labels ++ l.2 := by simp [moves]
    rw [prints c, shown, longer, callsAppend, List.cons_append]
    exact ⟨congrArg _ law.1, law.2⟩

end Client

section Console
variable {address : Client → Address} {randNum : Nat} {labels : List (Action × List Move)} {w : Watched}
  {s t : State} {a : Action} {made done : List Move} {c : Client}

def storedItems (m : Move) : List Item := [.received 66 m.client,.board m.turn.board]

def opened (s : State) : List Item :=
  match s.server.phase with
  | .sendingColour _ => []
  | _ => [.board initializeBoard]

def Away (s : State) : Prop := ∃ c, (s.klient c).phase = .sending ∨ s.toServer c ≠ []

theorem showsHome {colour : Byte} {board : Board} {k : Klient.State} {stage : Option Stage}
    {down up : List Byte} (shows' : Shows colour board k stage down up)
    (moved : stage ≠ some .moved) (returned : stage ≠ some .returned) :
    k.phase ≠ .sending ∧ up = [] := by
  cases shows' with
  | unassigned phase => simp [phase]
  | waiting inbox => cases inbox <;> simp [*]
  | offered inbox => cases inbox <;> simp [*]
  | thinking _ phase => simp [phase]
  | moved => exact absurd rfl moved
  | returned => exact absurd rfl returned

theorem homeHolds {place : Place} {board : Board} (holds : Holds randNum place board s)
    (moved : ∀ c, place.stage c ≠ some .moved) (returned : ∀ c, place.stage c ≠ some .returned) :
    ¬ Away s := by
  rintro ⟨c, away⟩
  obtain ⟨home, quiet⟩ := showsHome (holds.shown c) (moved c) (returned c)
  exact away.elim home (fun sent => sent quiet)

theorem stageHome {stage : Stage} (c d : Client) (home : stage ≠ .moved ∧ stage ≠ .returned) :
    (Place.turn c stage).stage d ≠ some .moved ∧ (Place.turn c stage).stage d ≠ some .returned := by
  by_cases same : d = c
  · rw [same, stageSelf]
    simpa using home
  · rw [stageOther same]
    decide

theorem turnHome {stage : Stage} {board : Board} (holds : Holds randNum (.turn c stage) board s)
    (home : stage ≠ .moved ∧ stage ≠ .returned) : ¬ Away s :=
  homeHolds holds (fun d => (stageHome c d home).1) (fun d => (stageHome c d home).2)

structure ConsoleShows (console : List Item) (done : List Move) (s : State) (stored : List Move) :
    Prop where
  console : console = opened s ++ stored.flatMap storedItems
  fresh : ∀ c, s.server.phase = .sendingColour c → done = []
  behind : (¬ Away s ∧ done = stored) ∨ (Away s ∧ ∃ m, done = stored ++ [m])

section Steps
variable {place : Place} {stored : List Move} {console : List Item}

theorem consoleStays (shown : ConsoleShows console done s stored) (same : t.server = s.server)
    (away : Away t ↔ Away s) : ConsoleShows console done t stored where
  console := by rw [shown.console, opened, opened, same]
  fresh := by rw [same]; exact shown.fresh
  behind := by rw [away]; exact shown.behind

theorem awayUpdate {k : Klient.State} {down : Client → List Byte}
    (before : (s.klient c).phase ≠ .sending) (after : k.phase ≠ .sending) :
    Away {s with klient := Function.update s.klient c k, toKlient := down} ↔ Away s := by
  unfold Away
  refine exists_congr (fun d => ?_)
  by_cases same : d = c
  · subst same
    simp [before, after]
  · simp [same]

theorem consoleSends (holds : Holds randNum place (latest done) s)
    (shown : ConsoleShows console done s stored) (next : act s .serverSends = some (made,t)) :
    ConsoleShows (console ++ serverPrints s t .serverSends) (done ++ made) t stored := by
  obtain ⟨c, bytes, server, sent, rfl, rfl⟩ := serverSent next
  have phase := holds.phase
  rw [List.append_nil]
  have away (server' : Server.State) (down : Client → List Byte) :
      Away {s with server := server', toKlient := down} ↔ Away s := Iff.rfl
  cases place with
  | colours d =>
    have home : ¬ Away s := homeHolds holds (fun c => by cases d <;> cases c <;> decide)
      (fun c => by cases d <;> cases c <;> decide)
    obtain rfl : done = stored := (shown.behind.resolve_right (fun other => home other.1)).2
    obtain rfl : done = [] := shown.fresh d phase
    cases d with
    | one =>
      simp only [Server.send, phase, Place.phase] at sent
      cases Option.some.inj sent
      refine ⟨?_, fun _ _ => rfl, .inl ⟨home, rfl⟩⟩
      simp [serverPrints, phase, Place.phase, shown.console, opened]
    | two =>
      simp only [Server.send, phase, Place.phase] at sent
      cases Option.some.inj sent
      refine ⟨?_, fun _ _ => rfl, .inl ⟨home, rfl⟩⟩
      have board : s.server.board = initializeBoard := holds.copy rfl
      simp [serverPrints, phase, Place.phase, shown.console, opened, board]
  | turn d stage =>
    cases stage <;> simp only [Server.send, phase, Place.phase] at sent <;> try contradiction
    cases Option.some.inj sent
    refine ⟨?_, fun c' first => (by cases first), shown.behind⟩
    simp [serverPrints, phase, Place.phase, shown.console, opened]

theorem consoleTakes (clean : ∀ i j, latest done i j ≠ nul)
    (holds : Holds randNum place (latest done) s) (mover : toMove done = place.toMove)
    (shown : ConsoleShows console done s stored) (next : act s .serverReceives = some (made,t)) :
    ConsoleShows (console ++ serverPrints s t .serverReceives) (done ++ made) t done := by
  obtain ⟨c, chunk, rest, events, server, phase, taken, received, rfl, rfl⟩ := serverReceived next
  rw [List.append_nil]
  obtain ⟨occupied, _⟩ := Tlv.recvTaken taken
  obtain ⟨active, frame, waits⟩ := Token.boardTaken (holds.shown c) occupied
  obtain rfl := Token.activeStage active (by decide)
  have away : Away s := ⟨c, .inr occupied⟩
  obtain ⟨m, rfl⟩ := (shown.behind.resolve_left (fun home => home.1 away)).2
  have newest : latest (stored ++ [m]) = m.turn.board := by simp [latest]
  have sender : m.client = c := by
    have others : m.client.other = c.other := by
      simpa [toMove, Place.toMove] using mover
    rw [← Client.otherOther m.client, others, Client.otherOther]
  rw [newest] at clean frame
  have size : (s.toServer c).length = 66 := by rw [frame, Tlv.cleanFrame clean]; simp
  rw [frame] at taken
  obtain ⟨bytes, rfl⟩ := Tlv.recvFrame taken
  obtain ⟨server', received', sending, held, _⟩ :=
    Server.receiveDelivered phase (Wire.frameDelivers clean bytes)
  cases Option.some.inj (received.symm.trans received')
  refine ⟨?_, fun c' first => (by rw [sending] at first; cases first), .inl ⟨?_, rfl⟩⟩
  · simp [serverPrints, phase, sending, held, shown.console, opened, storedItems, size, sender]
  · rintro ⟨d, moved⟩
    by_cases same : d = c
    · subst same
      obtain ⟨home, _⟩ := showsHome waits (by decide) (by decide)
      simp [home] at moved
    · obtain ⟨home, quiet⟩ := showsHome (stageOther same .returned ▸ holds.shown d)
        (by decide) (by decide)
      simp [same, home, quiet] at moved

theorem consoleTypes {q : Coordinates} (holds : Holds randNum place (latest done) s)
    (shown : ConsoleShows console done s stored) (next : act s (.types c q) = some (made,t)) :
    ConsoleShows console (done ++ made) t stored := by
  obtain ⟨turn, klient, scanned, rfl, rfl⟩ := klientScanned next
  obtain ⟨thinking, outcome⟩ := Token.clientScans (holds.shown c) scanned
  obtain rfl := Token.activeStage thinking (by decide)
  obtain ⟨typed, moving⟩ := Discipline.showsThinking (stageSelf c .thinking ▸ holds.shown c)
  rcases outcome with ⟨rfl, thinks⟩ | ⟨turn', rfl, _, _, moved⟩
  · obtain ⟨typed', moving'⟩ := Discipline.showsThinking thinks
    simp only [Option.toList, List.map_nil, List.append_nil]
    have away : Away {s with klient := Function.update s.klient c klient} ↔ Away s :=
      awayUpdate (by simp [moving]) (by simp [moving'])
    exact consoleStays shown rfl away
  · have home : ¬ Away s := turnHome holds (by decide)
    obtain rfl : done = stored := (shown.behind.resolve_right (fun other => home other.1)).2
    have sending := Discipline.showsMoved moved
    refine ⟨shown.console, fun c' first => ?_, .inr ⟨⟨c, .inl (by simpa using sending)⟩, _, rfl⟩⟩
    have phase := holds.phase
    rw [first] at phase
    cases phase

theorem consoleStep (run : Run (distributed randNum) labels s) (next : act s a = some (made,t))
    (shown : ConsoleShows console (moves labels) s stored) :
    ∃ stored', ConsoleShows (console ++ serverPrints s t a) (moves labels ++ made) t stored' := by
  obtain ⟨place, holds, mover, clean⟩ := Rounds.reachableClean run
  cases a with
  | serverSends => exact ⟨_, consoleSends holds shown next⟩
  | serverReceives => exact ⟨_, consoleTakes clean holds mover shown next⟩
  | receives c =>
    obtain ⟨_, _, klient, _, received, rfl, rfl⟩ := klientReceived next
    simp only [serverPrints, List.append_nil]
    refine ⟨_, consoleStays shown rfl ?_⟩
    rcases receivedShows received with ⟨colour, receiving, _⟩ | ⟨receiving, _, home, _⟩
    · exact awayUpdate (by simp [colour]) (by simp [receiving])
    · exact awayUpdate (by simp [receiving]) home
  | types c q =>
    simp only [serverPrints, List.append_nil]
    exact ⟨_, consoleTypes holds shown next⟩
  | sends c =>
    obtain ⟨bytes, klient, sent, rfl, rfl⟩ := klientSent next
    obtain ⟨moved, returned⟩ := Token.clientSends (holds.shown c) sent
    obtain rfl := Token.activeStage moved (by decide)
    have sending := Discipline.showsMoved (stageSelf c .moved ▸ holds.shown c)
    simp only [serverPrints, List.append_nil]
    refine ⟨_, consoleStays shown rfl ⟨fun _ => ⟨c, .inl sending⟩, fun _ => ⟨c, .inr ?_⟩⟩⟩
    simpa using Discipline.showsReturned returned

end Steps

theorem consoleRun (run : Run (watched address randNum) labels w) :
    ∃ stored, ConsoleShows w.console (moves labels) w.session stored := by
  induction run with
  | start first =>
    refine ⟨[], ?_, fun _ _ => rfl, .inl ⟨?_, rfl⟩⟩
    · simp [first.2.1, opened, first.1.server, Server.accepted]
    · rintro ⟨c, away⟩
      simp [(first.1.klients c).1, (first.1.quiet c).2] at away
  | @step labels w l u before next ih =>
    obtain ⟨stored, shown⟩ := ih
    obtain ⟨happened, prints, _⟩ := next
    obtain ⟨stored', later⟩ := consoleStep (sessionRun before) happened shown
    rw [prints, moves, List.flatMap_append, ← moves]
    exact ⟨stored', by simpa using later⟩

end Console

section History
variable {randNum : Nat} {done : List Move} {game : Board × Client} {c : Client}

def history (done : List Move) : List Board := initializeBoard :: done.map (fun m => m.turn.board)

def boardsOf (items : List Item) : List Board :=
  items.filterMap (fun item => match item with
    | .board shown => some shown
    | _ => none)

-- Client 2 is first asked after a move, and misses the board that every game begins with.
def missed : Client → List Board
  | .one => []
  | .two => [initializeBoard]

theorem boardsAppend (items more : List Item) :
    boardsOf (items ++ more) = boardsOf items ++ boardsOf more := List.filterMap_append

theorem boardsConnected (address : Address) (items : List Item) :
    boardsOf (.connected address :: items) = boardsOf items := rfl

theorem boardsNotices (output : List Notice) : boardsOf (notices output) = [] := by
  simp [boardsOf, notices, List.filterMap_map]

theorem boardsCall (m : Move) : boardsOf (callItems m) = [m.before,m.turn.board] := by
  rw [callItems, boardsAppend, ← List.singleton_append, boardsAppend, boardsNotices]
  rfl

theorem historyPlayed (run : Run (centralised randNum) done game) (c : Client) :
    missed c ++ boardsOf (callsShown c done) ++ (if toMove done = c then [latest done] else []) =
      history done := by
  induction run with
  | start => cases c <;> rfl
  | @step done game m next before happened ih =>
    obtain rfl := centralisedState before
    obtain ⟨client, board, _, _⟩ := happened
    dsimp only at client board
    have longer : history (done ++ [m]) = history done ++ [m.turn.board] := by simp [history]
    have mover : toMove (done ++ [m]) = m.client.other := by simp [toMove]
    have newest : latest (done ++ [m]) = m.turn.board := by simp [latest]
    rw [longer, ← ih, callsAppend, boardsAppend, mover, newest]
    have one : callsShown c [m] = if m.client = c then callItems m else [] := by simp [callsShown]
    by_cases same : m.client = c
    · have apart : c.other ≠ c := by cases c <;> decide
      rw [one, if_pos same, boardsCall, same, if_neg apart, ← client, if_pos same, board]
      simp
    · have turn : m.client.other = c := (Client.apart (fun other => same other.symm)).symm
      rw [one, if_neg same, if_pos turn, ← client, if_neg same]
      simp [boardsOf]

theorem boardsStored (stored : List Move) :
    boardsOf (stored.flatMap storedItems) = stored.map (fun m => m.turn.board) := by
  simp [boardsOf, storedItems, List.filterMap_flatMap, List.map_eq_flatMap]

theorem boardsGreeting (k : Klient.State) : boardsOf (greeting k) = [] := by
  unfold greeting
  split <;> rfl

theorem boardsPending {k : Klient.State} {typed : List Coordinates}
    (moving : k.phase = .moving typed) : boardsOf (pending k) = [k.board] := by
  simp only [pending, moving]
  rw [← List.singleton_append, boardsAppend, boardsNotices]
  rfl

end History

section Everyone
variable {address address' : Client → Address} {randNum randNum' : Nat}
  {labels labels' : List (Action × List Move)} {w w' : Watched} {c : Client}

theorem playerSees (run : Run (watched address randNum) labels w) (c : Client) :
    ∃ unseen, missed c ++ boardsOf (w.screen c) ++ unseen = history (moves labels) ∧
      unseen.length ≤ 1 ∧ ((∃ typed, (w.session.klient c).phase = .moving typed) → unseen = []) := by
  obtain ⟨place, run', holds, mover⟩ := Token.reachableHolds (sessionRun run)
  have played := historyPlayed run' c
  have shown := (screenRun run c).1
  by_cases moving : ∃ typed, (w.session.klient c).phase = .moving typed
  · obtain ⟨typed, phase⟩ := moving
    obtain ⟨held, turn⟩ := SharedBoard.movingTurn holds phase
    refine ⟨[], ?_, by simp, fun _ => rfl⟩
    rw [if_pos (mover.trans turn.symm)] at played
    rw [shown, boardsConnected, boardsAppend, boardsAppend, boardsGreeting, boardsPending phase, held,
      List.append_nil, List.nil_append, ← List.append_assoc, played]
  · refine ⟨if toMove (moves labels) = c then [latest (moves labels)] else [], ?_, ?_,
      fun asked => absurd asked moving⟩
    · rw [shown, boardsConnected, boardsAppend, boardsAppend, boardsGreeting,
        pendingIdle (fun typed phase => moving ⟨typed, phase⟩)]
      simpa [boardsOf] using played
    · split <;> simp

theorem serverSees (run : Run (watched address randNum) labels w) :
    ∃ unseen, boardsOf w.console ++ unseen = history (moves labels) ∧ unseen.length ≤ 1 := by
  obtain ⟨stored, shown⟩ := consoleRun run
  have boards := congrArg boardsOf shown.console
  rw [boardsAppend, boardsStored] at boards
  cases phase : w.session.server.phase with
  | sendingColour d =>
    have none := shown.fresh d phase
    have early : stored = [] := by
      rcases shown.behind with ⟨_, same⟩ | ⟨_, m, more⟩
      · exact same.symm.trans none
      · simp [none] at more
    refine ⟨[initializeBoard], ?_, Nat.le_refl _⟩
    rw [boards, early, none]
    simp [opened, phase, boardsOf, history]
  | _ =>
    have first : boardsOf (opened w.session) = [initializeBoard] := by simp [opened, phase, boardsOf]
    rw [boards, first]
    rcases shown.behind with ⟨_, same⟩ | ⟨_, m, more⟩
    · exact ⟨[], by simp [history, same], Nat.zero_le _⟩
    · exact ⟨[m.turn.board], by simp [history, more], Nat.le_refl _⟩

theorem screens (run : Run (watched address randNum) labels w) :
    (∀ c, w.screen c = .connected (address c) :: (greeting (w.session.klient c) ++
        callsShown c (moves labels) ++ pending (w.session.klient c)) ∧
      ∃ unseen, missed c ++ boardsOf (w.screen c) ++ unseen = history (moves labels) ∧
        unseen.length ≤ 1 ∧ ((∃ typed, (w.session.klient c).phase = .moving typed) → unseen = [])) ∧
    (∃ stored, w.console = opened w.session ++ stored.flatMap storedItems ∧
      ((¬ Away w.session ∧ moves labels = stored) ∨
        (Away w.session ∧ ∃ m, moves labels = stored ++ [m]))) ∧
    ∃ unseen, boardsOf w.console ++ unseen = history (moves labels) ∧ unseen.length ≤ 1 := by
  obtain ⟨stored, shown⟩ := consoleRun run
  exact ⟨fun c => ⟨(screenRun run c).1, playerSees run c⟩, ⟨stored, shown.console, shown.behind⟩,
    serverSees run⟩

def loopback (_ : Client) : Address := ⟨Texts.utf8 "127.0.0.1",by decide +kernel⟩

theorem screensCrowned : ∃ labels w, Run (watched loopback 0) labels w ∧ (moves labels).length = 10 ∧
    ∃ unseen, missed .two ++ boardsOf (w.screen .two) ++ unseen = history (moves labels) ∧
      unseen.length ≤ 1 := by
  obtain ⟨labels, s, played, ten⟩ := playedRun (fun labels _ => (moves labels).length)
    (SharedBoard.exchanges SharedBoard.crowningScript) 10 (by decide +kernel)
  obtain ⟨w, run, rfl⟩ := watchedRun loopback played
  obtain ⟨unseen, boards, few, _⟩ := ((screens run).1 .two).2
  exact ⟨labels, w, run, ten, unseen, boards, few⟩

theorem screenColour (run : Run (watched address randNum) labels w) (c : Client) :
    w.screen c = [.connected (address c)] ∨
      ∃ rest, w.screen c = .connected (address c) :: .colour (choosePlayersPawns randNum c) :: rest := by
  obtain ⟨place, _, holds, _⟩ := Token.reachableHolds (sessionRun run)
  obtain ⟨shown, fresh⟩ := screenRun run c
  by_cases phase : (w.session.klient c).phase = .colour
  · left
    rw [shown, fresh phase, pendingIdle (by simp [phase]), greeting, if_pos phase]
    rfl
  · right
    rw [shown, greeting, if_neg phase, (Discipline.showsColour (holds.shown c)).1 phase]
    exact ⟨_, rfl⟩

def Alike (done done' : List Move) : Prop :=
  ∃ seen unseen unseen', history done = seen ++ unseen ∧ history done' = seen ++ unseen' ∧
    unseen.length ≤ 1 ∧ unseen'.length ≤ 1

theorem bytesTell (run : Run (watched address randNum) labels w)
    (run' : Run (watched address' randNum') labels' w') :
    (∀ c, (w.screen c).flatMap Item.text = (w'.screen c).flatMap Item.text →
      Alike (moves labels) (moves labels') ∧ address c = address' c ∧
      ((∃ playerChar, .colour playerChar ∈ w.screen c) →
        choosePlayersPawns randNum c = choosePlayersPawns randNum' c)) ∧
    (w.console.flatMap Item.text = w'.console.flatMap Item.text →
      Alike (moves labels) (moves labels')) := by
  refine ⟨fun c same => ⟨?_, ?_, fun printed => ?_⟩, fun same => ?_⟩
  · have items := screenUnique same
    obtain ⟨unseen, boards, few, _⟩ := playerSees run c
    obtain ⟨unseen', boards', few', _⟩ := playerSees run' c
    rw [← items] at boards'
    exact ⟨_, unseen, unseen', boards.symm, boards'.symm, few, few'⟩
  · have items := screenUnique same
    rw [(screenRun run c).1, (screenRun run' c).1] at items
    exact Item.connected.inj (List.cons.inj items).1
  · have items := screenUnique same
    obtain ⟨letter, printed⟩ := printed
    have told : ∀ address, w.screen c ≠ [.connected address] := by
      intro address only
      rw [only] at printed
      cases List.mem_singleton.mp printed
    obtain ⟨rest, mine⟩ := (screenColour run c).resolve_left (told _)
    obtain ⟨rest', others⟩ := (screenColour run' c).resolve_left (items ▸ told _)
    rw [mine, others] at items
    exact Item.colour.inj (List.cons.inj (List.cons.inj items).2).1
  · have items := screenUnique same
    obtain ⟨unseen, boards, few⟩ := serverSees run
    obtain ⟨unseen', boards', few'⟩ := serverSees run'
    rw [← items] at boards'
    exact ⟨_, unseen, unseen', boards.symm, boards'.symm, few, few'⟩

theorem bytesTellOpening : ∃ labels labels' : List (Action × List Move),
    (moves labels).length = 1 ∧ labels ≠ labels' ∧ Alike (moves labels) (moves labels') := by
  obtain ⟨labels, s, played, shown⟩ := playedRun
    (fun labels s => ((moves labels).length,(act s (.receives .two)).isSome))
    SharedBoard.openingActions (1,true) (by decide +kernel)
  obtain ⟨one, goes⟩ := Prod.mk.inj shown
  obtain ⟨⟨made, t⟩, next⟩ := Option.isSome_iff_exists.mp goes
  have played' : Run (distributed 0) (labels ++ [(.receives .two,made)]) t := .step played next
  obtain ⟨_, _, _, _, _, rfl, rfl⟩ := klientReceived next
  obtain ⟨w, run, session⟩ := watchedRun loopback played
  obtain ⟨w', run', session'⟩ := watchedRun loopback played'
  have same : w.screen .one = w'.screen .one := by
    rw [(screenRun run .one).1, (screenRun run' .one).1, session, session']
    simp [moves]
  exact ⟨labels, _, one, by simp,
    ((bytesTell run run').1 .one (congrArg (List.flatMap Item.text) same)).1⟩

end Everyone
end Warcaby.Screen
