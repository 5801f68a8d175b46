import Warcaby.Replay
import Warcaby.Unreliable

/-! Another program at one of the two seats. The server and the other client are as they
are, on streams as TCP has them; what the stranger writes is up to it. -/
namespace Warcaby.Stranger
open ByteStream Tlv Wire MakeMove Token
open Grid (flatten)
open Server (Client choosePlayersPawns)
open Session (State Move Connected moves)
open Unreliable (Party Exited recvPart Taking)
open Transition (Machine Run Steps)

inductive Action where
  | usual (a : Unreliable.Action)
  | writes (bytes : List Byte)
  deriving DecidableEq, Repr

/- The stranger makes none of the calls of a client. It may be stopped, as anybody may. -/
def others (honest : Client) : Unreliable.Action → Bool
  | .receives c _ => c = honest
  | .types c _ => c = honest
  | .sends c => c = honest
  | _ => true

/- Nobody looks at what the stranger has read: its incoming stream keeps everything. -/
def act (honest : Client) (s : State) : Action → Option (List Move × State)
  | .usual a => if others honest a then Unreliable.act s a else none
  | .writes bytes =>
    if Exited s (.client honest.other) then none
    else some ([],{s with
      toServer := Function.update s.toServer honest.other (s.toServer honest.other ++ bytes)})

def facing (honest : Client) (randNum : Nat) : Machine State (Action × List Move) where
  start := Connected randNum
  step s label t := act honest s label.1 = some (label.2,t)

section Frames
variable {board : Board} {chunk : Chunk}

/- The last cell may be NUL: it is read back from the terminator. -/
def Sound (board : Board) : Prop := ∀ i j : Fin 8, (i : Nat) * 8 + j < 63 → board i j ≠ nul
instance (board) : Decidable (Sound board) := by unfold Sound; infer_instance

theorem soundLength : Sound board ↔ 63 ≤ strlen (flatten board) := (strlenCells (by decide)).symm

theorem framePayload (whole : chunk.bytes = boardFrame board) :
    Accepted chunk ∧ payload chunk = (flatten board).take (strlen (flatten board)) := by
  refine ⟨⟨_, by rw [whole]; exact frameDecoded board⟩, ?_⟩
  rw [payload, whole, frameBytes]
  rfl

theorem soundDelivers (sound : Sound board) (whole : chunk.bytes = boardFrame board) :
    Delivers chunk board := by
  have long := soundLength.mp sound
  have small := strlenBoard board
  obtain ⟨accepted, cells⟩ := framePayload whole
  refine ⟨accepted, ?_, ?_⟩
  · rw [cells, List.length_take, Grid.flattenLength]
    omega
  · have stored := storedWhole long board
    rw [setBoardEnough (by simp; omega), boardOfTerminated] at stored
    rw [cells]
    exact (Except.ok.inj stored).symm

theorem unsoundOverruns (unsound : ¬ Sound board) (whole : chunk.bytes = boardFrame board) :
    Overruns chunk := by
  rw [soundLength] at unsound
  obtain ⟨accepted, cells⟩ := framePayload whole
  refine ⟨accepted, ?_⟩
  rw [cells, List.length_take]
  omega

theorem storeOverrunAt (overruns : Overruns chunk) (old : Board) (buffer : List Byte) :
    storeFrame old (overwrite buffer chunk.bytes) chunk.bytes.length =
      some (.error (.pastEnd ((payload chunk).length + 1))) := by
  have short := overruns.short
  rw [storeReceived, storeFrame, acceptedPayload overruns.accepted]
  have stored : setBoardToBuffer old (payload chunk ++ [nul]) = .error (.pastEnd _) :=
    setBoardShort (by simp; omega) old
  rw [List.length_append, List.length_singleton] at stored
  exact congrArg some stored

theorem crownedNotNul {piece : Byte} (whole : piece ≠ nul) (row : Int) : Rule.crowned piece row ≠ nul := by
  unfold Rule.crowned
  split
  · decide
  · split
    · decide
    · exact whole

theorem soundMoved {p : Colour} {inputs : List Coordinates} {t : MakeMove.Turn}
    (sound : Sound board) (returns : makeMove board p.man inputs = .ok (some t)) : Sound t.board := by
  obtain ⟨m, returned⟩ := Turn.makeMoveReturned returns
  rw [returned.result]
  have piece : m.cell board 0 ≠ nul := by
    rcases returned.legal.mover with ⟨c, _, man, _⟩ | king | king
    · rw [man]
      cases c <;> decide
    · rw [king]
      decide
    · rw [king]
      decide
  intro i j early
  rcases Rule.resultCases m board i j with empty | ⟨_, _, here⟩ | same
  · rw [empty]
    decide
  · rw [here]
    exact crownedNotNul piece _
  · rw [same]
    exact sound i j early

end Frames

/- Where the board is: with the honest client or on its way there and back, about to go
to the stranger, or there. -/
inductive Spot where
  | colours (c : Client)
  | mine (stage : Stage)
  | leaving
  | away
  deriving DecidableEq, Repr

def Spot.phase (honest : Client) : Spot → Server.Phase
  | colours c => .sendingColour c
  | mine .waiting => .sending honest
  | mine _ => .receiving honest
  | leaving => .sending honest.other
  | away => .receiving honest.other

def Spot.stage (honest : Client) : Spot → Option Stage
  | colours c => (Place.colours c).stage honest
  | mine stage => some stage
  | _ => some .waiting

def Spot.atServer : Spot → Bool
  | mine stage => stage = .waiting
  | away => false
  | _ => true

def dealt (honest : Client) (done : List Move) : List Board :=
  (if honest = .two then [initializeBoard] else []) ++ done.map (fun m => m.turn.board)

def handed (honest : Client) (randNum : Nat) (boards : List Board) : List Byte :=
  choosePlayersPawns randNum honest.other :: boards.flatMap boardFrame

def Spot.sent (honest : Client) (randNum : Nat) (done : List Move) : Spot → List Byte
  | colours .one => []
  | colours .two => if honest = .two then handed honest randNum [] else []
  | mine .moved | mine .returned | leaving => handed honest randNum (dealt honest done).dropLast
  | _ => handed honest randNum (dealt honest done)

def Spot.Fits (honest : Client) (done : List Move) (board : Board) : Spot → Prop
  | colours _ => done = [] ∧ board = initializeBoard
  | mine .thinking => Sound board ∧ (dealt honest done = [] → board = initializeBoard)
  | mine .moved | mine .returned => Sound board ∧ (dealt honest done).getLast? = some board
  | mine _ => dealt honest done = [] → board = initializeBoard
  | leaving => (dealt honest done).getLast? = some board
  | away => dealt honest done ≠ []

/- A legal move on a board that nobody has checked. -/
structure Unchecked (honest : Client) (randNum : Nat) (m : Move) : Prop where
  mine : m.client = honest
  returns : makeMove m.before (choosePlayersPawns randNum honest) m.inputs = .ok (some m.turn)
  last : m.turn.rest = []
  sound : Sound m.before

structure Forged (honest : Client) (randNum : Nat) (done : List Move) : Prop where
  moves : ∀ m ∈ done, Unchecked honest randNum m
  opening : honest = .one → ∀ m ∈ done.head?, m.before = initializeBoard

def Crashed (phase : Fault → Prop) : Prop := ∃ k, 1 ≤ k ∧ k ≤ 63 ∧ phase (.pastEnd k)

def Stopped (s : State) : Prop :=
  Exited s .server ∨ Crashed (fun fault => s.server.phase = .undefined fault)

def ServerFaces (honest : Client) (randNum : Nat) (spot : Spot) (board : Board) (s : State) : Prop :=
  s.server.phase = spot.phase honest ∧ s.server.randNum = randNum ∧
    (spot.atServer = true → s.server.board = board) ∧
    s.toServer honest = if spot.stage honest = some .returned then boardFrame board else []

def Seated (honest : Client) (randNum : Nat) (spot : Spot) (board : Board) (s : State) : Prop :=
  Taking randNum (spot.stage honest) board s honest ∨
    spot = .mine .offered ∧ Crashed (fun fault => (s.klient honest).phase = .undefined fault)

structure Faces (honest : Client) (randNum : Nat) (done : List Move) (spot : Spot) (board : Board)
    (s : State) : Prop where
  forged : Forged honest randNum done
  fits : spot.Fits honest done board
  server : Stopped s ∨ ServerFaces honest randNum spot board s
  seat : Seated honest randNum spot board s
  waits : Replay.Waits (s.klient honest)
  sent : s.toKlient honest.other = spot.sent honest randNum done

def Goes (honest : Client) (randNum : Nat) (done : List Move) (t : State) : Prop :=
  ∃ spot board, Faces honest randNum done spot board t

section Steps
variable {honest : Client} {randNum : Nat} {done : List Move} {spot : Spot} {board : Board}
  {s t : State} {made : List Move}

theorem otherApart (c : Client) : c.other ≠ c := by cases c <;> decide

theorem forgedNone (honest : Client) (randNum : Nat) : Forged honest randNum [] where
  moves := by simp
  opening := by simp

theorem connectedFaces (first : Connected randNum s) :
    Faces honest randNum [] (.colours .one) initializeBoard s where
  forged := forgedNone honest randNum
  fits := ⟨rfl, rfl⟩
  server := by
    refine .inr ⟨by rw [first.server]; rfl, by rw [first.server]; rfl, ?_, ?_⟩
    · rw [first.server]
      exact fun _ => rfl
    · rw [(first.quiet honest).2]
      rfl
  seat := by
    refine .inl (.inr (.inr ⟨[], ?_⟩))
    rw [(first.quiet honest).1]
    exact .unassigned (first.klients honest).1
  waits := Replay.waitsFresh (Replay.typedOfPhase (by simp [(first.klients honest).1]))
  sent := (first.quiet honest.other).1

theorem seatFrame (seat : Seated honest randNum spot board s)
    (klient : t.klient honest = s.klient honest) (down : t.toKlient honest = s.toKlient honest)
    (gone : Exited s .server → Exited t .server) : Seated honest randNum spot board t := by
  refine seat.imp (fun taking => Unreliable.takingFrame taking klient down gone) ?_
  rw [klient]
  exact id

theorem seatTaking (seat : Seated honest randNum spot board s) (elsewhere : spot ≠ .mine .offered) :
    Taking randNum (spot.stage honest) board s honest :=
  seat.resolve_right (fun failed => elsewhere failed.1)

theorem sendsRunning {c : Client} {bytes : List Byte} {server : Server.State}
    (sent : Server.send s.server = some (c,bytes,server)) : ¬ Stopped s := by
  rintro (exited | ⟨k, _, _, undefined⟩)
  · simp [Server.send, (show s.server.phase = .exited from exited)] at sent
  · simp [Server.send, undefined] at sent

theorem handedLast (last : (dealt honest done).getLast? = some board) :
    handed honest randNum (dealt honest done).dropLast ++ boardFrame board =
      handed honest randNum (dealt honest done) := by
  have split := List.dropLast_append_getLast? board last
  rw [handed, handed, ← split]
  simp

def Spot.coloured (honest : Client) : Client → Spot
  | .one => .colours .two
  | .two => if honest = .one then .mine .waiting else .leaving

theorem colouredStage (honest c : Client) : (Spot.coloured honest c).stage honest =
    if honest = c then some .waiting else (Spot.colours c).stage honest := by
  cases honest <;> cases c <;> rfl

theorem facesColours {c d : Client} {bytes : List Byte} {server : Server.State}
    (faces : Faces honest randNum done (.colours d) board s) (alive : ¬ Exited s .server)
    (serving : ServerFaces honest randNum (.colours d) board s)
    (sent : Server.send s.server = some (c,bytes,server)) : Goes honest randNum done {s with
      server := server, toKlient := Function.update s.toKlient c (s.toKlient c ++ bytes)} := by
  obtain ⟨phase, drawn, copy, up⟩ := serving
  obtain ⟨rfl, rfl, rfl⟩ := Unreliable.colourSent phase sent
  obtain ⟨rfl, rfl⟩ := faces.fits
  have taking := seatTaking faces.seat (by simp)
  refine ⟨.coloured honest c, initializeBoard, faces.forged, ?_,
    .inr ⟨?_, drawn, fun _ => copy rfl, ?_⟩, .inl ?_, faces.waits, ?_⟩
  · cases honest <;> cases c <;> simp [Spot.coloured, Spot.Fits, dealt]
  · cases honest <;> cases c <;> rfl
  · rw [up]
    cases honest <;> cases c <;> rfl
  · rw [colouredStage]
    by_cases mine : honest = c
    · subst mine
      have none : (Spot.colours honest).stage honest = none := by cases honest <;> rfl
      rw [none] at taking
      rw [if_pos rfl, drawn]
      exact Unreliable.takingSent alive taking (fun _ => colourGiven)
    · rw [if_neg mine]
      exact Unreliable.takingElsewhere alive mine taking
  · have before := faces.sent
    by_cases mine : honest = c
    · subst mine
      simp only [Function.update_of_ne (otherApart honest), before]
      cases honest <;> rfl
    · obtain rfl : c = honest.other := by
        cases honest <;> cases c <;> first | rfl | exact absurd rfl mine
      simp only [Function.update_self, before, drawn]
      cases honest <;> rfl

theorem facesSends (faces : Faces honest randNum done spot board s)
    (next : Session.act s .serverSends = some (made,t)) : Goes honest randNum (done ++ made) t := by
  obtain ⟨c, bytes, server, sent, rfl, rfl⟩ := Session.serverSent next
  rw [List.append_nil]
  have running := sendsRunning sent
  have alive : ¬ Exited s .server := fun exited => running (.inl exited)
  obtain ⟨phase, drawn, copy, up⟩ := faces.server.resolve_left running
  have apart := otherApart honest
  cases spot with
  | colours d => exact facesColours faces alive ⟨phase, drawn, copy, up⟩ sent
  | mine stage =>
    cases stage <;> simp only [Server.send, phase, Spot.phase] at sent <;> try contradiction
    cases Option.some.inj sent
    refine ⟨.mine .offered, board, faces.forged, faces.fits,
      .inr ⟨rfl, drawn, fun there => absurd there (by decide), up⟩, .inl ?_, faces.waits, ?_⟩
    · rw [copy rfl]
      exact Unreliable.takingSent alive (seatTaking faces.seat (by simp)) (fun _ => boardGiven)
    · simp only [Function.update_of_ne apart]
      exact faces.sent
  | leaving =>
    simp only [Server.send, phase, Spot.phase] at sent
    cases Option.some.inj sent
    refine ⟨.away, board, faces.forged, ?_, .inr ⟨rfl, drawn, fun there => absurd there (by decide), up⟩,
      .inl ?_, faces.waits, ?_⟩
    · intro none
      have last : (dealt honest done).getLast? = some board := faces.fits
      rw [none] at last
      cases last
    · have taking := seatTaking faces.seat (by simp)
      exact Unreliable.takingElsewhere alive apart.symm taking
    · simp only [Function.update_self, faces.sent, copy rfl]
      exact handedLast faces.fits
  | away => simp only [Server.send, phase, Spot.phase] at sent; contradiction

theorem facesStopped (faces : Faces honest randNum done spot board s) (stopped : Stopped t)
    (klient : t.klient = s.klient) (down : t.toKlient = s.toKlient)
    (gone : Exited s .server → Exited t .server) : Faces honest randNum done spot board t where
  forged := faces.forged
  fits := faces.fits
  server := .inl stopped
  seat := seatFrame faces.seat (congrFun klient honest) (congrFun down honest) gone
  waits := by
    rw [klient]
    exact faces.waits
  sent := by
    rw [down]
    exact faces.sent

theorem overrunCrashes {chunk : Chunk} {server : Server.State} {events : List Server.Event}
    {c : Client} (phase : s.server.phase = .receiving c) (overruns : Overruns chunk)
    (received : Server.receive s.server chunk = some (events,server)) :
    Crashed (fun fault => server.phase = .undefined fault) := by
  have short := overruns.short
  simp only [Server.receive, phase, storeOverrunAt overruns] at received
  cases Option.some.inj received
  exact ⟨(payload chunk).length + 1, by omega, by omega, rfl⟩

theorem facesTakes {size : Nat} (faces : Faces honest randNum done spot board s)
    (next : Unreliable.act s (.serverReceives size) = some (made,t)) :
    Goes honest randNum (done ++ made) t := by
  obtain ⟨c, chunk, rest, events, server, phase', taken, received, rfl, rfl⟩ :=
    Unreliable.serverReceived next
  rw [List.append_nil]
  have running : ¬ Stopped s := by
    rintro (exited | ⟨k, _, _, undefined⟩)
    · cases phase'.symm.trans exited
    · cases phase'.symm.trans undefined
  have alive : ¬ Exited s .server := fun exited => running (.inl exited)
  obtain ⟨phase, drawn, copy, up⟩ := faces.server.resolve_left running
  have exits (refused : Refused chunk) : Goes honest randNum done {s with
      server := server, toServer := Function.update s.toServer c rest} := by
    have exited := Unreliable.refusedExits phase' refused received
    exact ⟨spot, board, facesStopped faces (.inl exited) rfl rfl (fun _ => exited)⟩
  cases spot with
  | colours d => cases phase.symm.trans phase'
  | leaving => cases phase.symm.trans phase'
  | mine stage =>
    obtain rfl : c = honest := by
      cases stage <;> cases phase.symm.trans phase' <;> rfl
    rw [up] at taken
    rcases Unreliable.givenFrame taken with ⟨returned, bytes, rfl⟩ | refused
    · obtain rfl : stage = .returned := by simpa [Spot.stage] using returned
      obtain ⟨next', received', sending, stored, kept⟩ :=
        Server.receiveDelivered phase' (soundDelivers faces.fits.1 bytes)
      cases Option.some.inj (received.symm.trans received')
      have taking := seatTaking faces.seat (by simp)
      refine ⟨.leaving, board, faces.forged, faces.fits.2,
        .inr ⟨sending, kept.trans drawn, fun _ => stored, Function.update_self ..⟩, .inl ?_,
        faces.waits, faces.sent⟩
      exact taking.imp_right (Or.imp (fun missed => absurd missed.1 alive)
        (fun ⟨_, shows'⟩ => ⟨_, Unreliable.returnedWaits shows'⟩))
    · exact exits refused
  | away =>
    cases phase.symm.trans phase'
    rcases chunkVerdict chunk with refused | overruns | ⟨board', delivers⟩
    · exact exits refused
    · exact ⟨.away, board, facesStopped faces (.inr (overrunCrashes phase' overruns received)) rfl rfl
        (fun gone => absurd gone alive)⟩
    · obtain ⟨next', received', sending, stored, kept⟩ := Server.receiveDelivered phase' delivers
      cases Option.some.inj (received.symm.trans received')
      rw [Client.otherOther] at sending
      have taking := seatTaking faces.seat (by simp)
      refine ⟨.mine .waiting, board', faces.forged, fun none => absurd none faces.fits,
        .inr ⟨sending, kept.trans drawn, fun _ => stored, ?_⟩, .inl ?_, faces.waits, faces.sent⟩
      · exact (Function.update_of_ne (otherApart honest).symm ..).trans up
      · have kept : Taking randNum (some .waiting) board {s with
            server := server, toServer := Function.update s.toServer honest.other rest} honest :=
          Unreliable.takingFrame taking rfl rfl (fun gone => absurd gone alive)
        exact Unreliable.takingWaiting kept board'

theorem facesKlient {k : Klient.State} {down : List Byte} (faces : Faces honest randNum done spot board s)
    (seat : Seated honest randNum spot board {s with
      klient := Function.update s.klient honest k, toKlient := Function.update s.toKlient honest down})
    (waits : Replay.Waits k) : Faces honest randNum done spot board {s with
      klient := Function.update s.klient honest k,
      toKlient := Function.update s.toKlient honest down} where
  forged := faces.forged
  fits := faces.fits
  server := faces.server
  seat := seat
  waits := by
    simp only [Function.update_self]
    exact waits
  sent := (Function.update_of_ne (otherApart honest) ..).trans faces.sent

theorem stageSpot {stage : Stage} (active : spot.stage honest = some stage)
    (busy : stage ≠ .waiting) : spot = .mine stage := by
  cases spot with
  | colours d =>
    cases d <;> cases honest <;> cases active
    exact absurd rfl busy
  | mine stage => rw [Option.some.inj active]
  | leaving | away => exact absurd (Option.some.inj active).symm busy

theorem servingMine {klient : Client → Klient.State} {down : Client → List Byte} {stage : Stage}
    (stage' : Stage) (server : Stopped s ∨ ServerFaces honest randNum (.mine stage) board s)
    (phases : (Spot.mine stage).phase honest = (Spot.mine stage').phase honest)
    (busy : stage' ≠ .waiting) (before : stage ≠ .returned) (after : stage' ≠ .returned)
    (board' : Board) :
    Stopped {s with klient := klient, toKlient := down} ∨
      ServerFaces honest randNum (.mine stage') board' {s with klient := klient, toKlient := down} := by
  refine server.imp_right (fun ⟨phase, drawn, _, up⟩ => ⟨phase.trans phases, drawn, ?_, ?_⟩)
  · exact fun there => absurd (of_decide_eq_true there) busy
  · simpa [Spot.stage, before, after] using up

theorem overrunFails {k next : Klient.State} {chunk : Chunk} (phase : k.phase = .receiving)
    (overruns : Overruns chunk) (received : Klient.receive k chunk = some next) :
    Crashed (fun fault => next.phase = .undefined fault) := by
  have short := overruns.short
  simp only [Klient.receive, phase, storeOverrunAt overruns] at received
  cases Option.some.inj received
  exact ⟨(payload chunk).length + 1, by omega, by omega, rfl⟩

theorem facesReceives {size : Nat} (faces : Faces honest randNum done spot board s)
    (next : Unreliable.act s (.receives honest size) = some (made,t)) :
    Goes honest randNum (done ++ made) t := by
  obtain ⟨chunk, rest, klient, taken, received, rfl, rfl⟩ := Unreliable.klientReceived next
  rw [List.append_nil]
  have waits : Replay.Waits klient := Replay.waitsFresh (Replay.receivedFresh received).2
  have exits (exited : klient.phase = .exited) : Goes honest randNum done {s with
      klient := Function.update s.klient honest klient,
      toKlient := Function.update s.toKlient honest rest} :=
    ⟨spot, board, facesKlient faces (.inl (.inl (by simpa [Exited] using exited))) waits⟩
  rcases faces.seat with (exited | ⟨_, receiving, empty⟩ | ⟨up, shows'⟩) | ⟨_, k, _, _, failed⟩
  · simp [Klient.receive, (show (s.klient honest).phase = .exited from exited)] at received
  · rw [empty] at taken
    obtain ⟨_, _, missed | exited⟩ := Unreliable.endPart (.inr receiving) taken received
    · cases missed.1.symm.trans receiving
    · exact exits exited
  · rcases Unreliable.clientTakesPart shows' taken received with ⟨colour, receiving, kept⟩ |
      ⟨offered, receiving, mine, bytes, rfl, rfl⟩ | exited | ⟨closed, colour, receiving, ended⟩
    · exact ⟨spot, board, facesKlient faces (.inl (.inr (.inr ⟨up, by simpa using kept⟩))) waits⟩
    · obtain rfl := stageSpot offered (by decide)
      by_cases sound : Sound board
      · obtain ⟨next', received', moving, held, kept⟩ :=
          Klient.receiveDelivered receiving (soundDelivers sound bytes)
        cases Option.some.inj (received.symm.trans received')
        refine ⟨.mine .thinking, board, faces.forged, ⟨sound, faces.fits⟩,
          servingMine .thinking faces.server rfl (by decide) (by decide) (by decide) board,
          .inl (.inr (.inr ⟨[], ?_⟩)), ?_, (Function.update_of_ne (otherApart honest) ..).trans faces.sent⟩
        · have thinks : Shows (choosePlayersPawns randNum honest) board klient (some .thinking) [] [] :=
            .thinking [] moving (kept.trans mine) held
          simpa [Spot.stage] using thinks
        · simp only [Function.update_self]
          exact waits
      · obtain ⟨k, low, high, failed⟩ :=
          overrunFails receiving (unsoundOverruns sound bytes) received
        exact ⟨_, board, facesKlient faces (.inr ⟨rfl, k, low, high, by simpa using failed⟩) waits⟩
    · exact exits exited
    · refine ⟨spot, board, facesKlient faces (.inl (.inr (.inl ⟨closed, ?_, ?_⟩))) waits⟩
      · simpa using receiving
      · simpa using ended
  · simp [Klient.receive, failed] at received

theorem forgedMore {m : Move} (forged : Forged honest randNum done)
    (unchecked : Unchecked honest randNum m)
    (opening : honest = .one → done = [] → m.before = initializeBoard) :
    Forged honest randNum (done ++ [m]) where
  moves := by
    intro n member
    rcases List.mem_append.mp member with old | new
    · exact forged.moves n old
    · rwa [List.mem_singleton.mp new]
  opening := by
    intro first n head
    cases done with
    | nil =>
      obtain rfl := Option.mem_some_iff.mp head
      exact opening first rfl
    | cons d rest => exact forged.opening first n head

theorem dealtMore (honest : Client) (done : List Move) (m : Move) :
    dealt honest (done ++ [m]) = dealt honest done ++ [m.turn.board] := by
  simp [dealt]

theorem dealtNone (first : honest = .one) (none : done = []) : dealt honest done = [] := by
  simp [dealt, first, none]

theorem facesTypes {q : Coordinates} (faces : Faces honest randNum done spot board s)
    (next : Session.act s (.types honest q) = some (made,t)) :
    Goes honest randNum (done ++ made) t := by
  obtain ⟨turn, klient, scanned, rfl, rfl⟩ := Session.klientScanned next
  obtain ⟨up, shows'⟩ : ∃ up, Shows (choosePlayersPawns randNum honest) board (s.klient honest)
      (spot.stage honest) (s.toKlient honest) up := by
    rcases faces.seat with (exited | ⟨_, receiving, _⟩ | shows') | ⟨_, k, _, _, failed⟩
    · simp [Klient.scan, (show (s.klient honest).phase = .exited from exited)] at scanned
    · simp [Klient.scan, receiving] at scanned
    · exact shows'
    · simp [Klient.scan, failed] at scanned
  obtain ⟨thinking, outcome⟩ := clientScans shows' scanned
  obtain rfl := stageSpot thinking (by decide)
  obtain ⟨sound, opening⟩ := faces.fits
  rcases outcome with ⟨rfl, thinks⟩ | ⟨turn, rfl, held, returns, moves'⟩
  · obtain ⟨_, _, waits⟩ | ⟨t, none, _⟩ := Replay.scannedTyped scanned
    · refine ⟨.mine .thinking, board, ?_, ⟨sound, by simpa using opening⟩, faces.server,
        .inl (.inr (.inr ⟨up, by simpa [Spot.stage] using thinks⟩)), ?_, ?_⟩
      · simpa using faces.forged
      · simp only [Function.update_self]
        exact waits
      · simpa using faces.sent
    · cases none
  · obtain ⟨none, _⟩ | ⟨t, same, fresh, read⟩ := Replay.scannedTyped scanned
    · cases none
    · obtain rfl := Option.some.inj same
      have unchecked : Unchecked honest randNum (Session.move honest (s.klient honest) q turn) :=
        ⟨rfl, by rw [← held] at returns; exact returns, (Replay.returnsLast faces.waits read).1,
          by rw [← held] at sound; exact sound⟩
      have more := dealtMore honest done (Session.move honest (s.klient honest) q turn)
      have sound' : Sound turn.board := by
        rw [Session.assignedMan] at returns
        exact soundMoved sound returns
      refine ⟨.mine .moved, turn.board, forgedMore faces.forged unchecked
        (fun first none => held.trans (opening (dealtNone first none))), ⟨sound', ?_⟩,
        servingMine .moved faces.server rfl (by decide) (by decide) (by decide) _,
        .inl (.inr (.inr ⟨up, by simpa [Spot.stage] using moves'⟩)), ?_, ?_⟩
      · exact (congrArg List.getLast? more).trans List.getLast?_concat
      · simp only [Function.update_self]
        exact Replay.waitsFresh fresh
      · refine faces.sent.trans (congrArg (handed honest randNum) ?_)
        exact ((congrArg List.dropLast more).trans List.dropLast_concat).symm

theorem facesReturns (faces : Faces honest randNum done spot board s)
    (next : Session.act s (.sends honest) = some (made,t)) : Goes honest randNum (done ++ made) t := by
  obtain ⟨bytes, klient, sent, rfl, rfl⟩ := Session.klientSent next
  rw [List.append_nil]
  obtain ⟨up, shows'⟩ : ∃ up, Shows (choosePlayersPawns randNum honest) board (s.klient honest)
      (spot.stage honest) (s.toKlient honest) up := by
    rcases faces.seat with (exited | ⟨_, receiving, _⟩ | shows') | ⟨_, k, _, _, failed⟩
    · simp [Klient.send, (show (s.klient honest).phase = .exited from exited)] at sent
    · simp [Klient.send, receiving] at sent
    · exact shows'
    · simp [Klient.send, failed] at sent
  obtain ⟨moved, returned⟩ := clientSends shows' sent
  obtain rfl := stageSpot moved (by decide)
  have frame : bytes = boardFrame board := Unreliable.movedSends shows' sent
  refine ⟨.mine .returned, board, faces.forged, faces.fits, ?_,
    .inl (.inr (.inr ⟨_, by simpa [Spot.stage] using returned⟩)), ?_, faces.sent⟩
  · rcases faces.server with stopped | ⟨phase, drawn, _, up⟩
    · exact .inl stopped
    · refine .inr ⟨phase, drawn, fun there => absurd there (by decide), ?_⟩
      rw [if_neg (by simp [Spot.stage])] at up
      simp [Spot.stage, up, frame]
  · simp only [Function.update_self]
    exact Replay.waitsFresh (Replay.sentFresh sent).2

theorem facesStops {party : Party} (faces : Faces honest randNum done spot board s)
    (next : Unreliable.act s (.stops party) = some (made,t)) :
    Goes honest randNum (done ++ made) t := by
  obtain ⟨_, rfl, rfl⟩ := Unreliable.stopped next
  rw [List.append_nil]
  cases party with
  | server => exact ⟨spot, board, facesStopped faces (.inl rfl) rfl rfl (fun _ => rfl)⟩
  | client c =>
    by_cases mine : c = honest
    · subst mine
      refine ⟨spot, board, faces.forged, faces.fits, faces.server, .inl (.inl ?_), ?_, faces.sent⟩
      · simp [Exited, Unreliable.stop]
      · refine Replay.waitsFresh (Replay.typedOfPhase ?_)
        simp [Unreliable.stop]
    · have klient : (Unreliable.stop s (.client c)).klient honest = s.klient honest :=
        Function.update_of_ne (Ne.symm mine) ..
      refine ⟨spot, board, faces.forged, faces.fits, faces.server,
        seatFrame faces.seat klient rfl id, ?_, faces.sent⟩
      rw [klient]
      exact faces.waits

theorem facesWrites {bytes : List Byte} (faces : Faces honest randNum done spot board s)
    (next : act honest s (.writes bytes) = some (made,t)) : Goes honest randNum (done ++ made) t := by
  simp only [act] at next
  split at next
  · cases next
  · cases Option.some.inj next
    rw [List.append_nil]
    refine ⟨spot, board, faces.forged, faces.fits, ?_, faces.seat, faces.waits, faces.sent⟩
    refine faces.server.imp_right (fun ⟨phase, drawn, copy, up⟩ => ⟨phase, drawn, copy, ?_⟩)
    exact (Function.update_of_ne (otherApart honest).symm ..).trans up

theorem facesStep {a : Action} (faces : Faces honest randNum done spot board s)
    (next : act honest s a = some (made,t)) : Goes honest randNum (done ++ made) t := by
  cases a with
  | writes bytes => exact facesWrites faces next
  | usual a =>
    simp only [act] at next
    split at next
    · rename_i ours
      cases a with
      | serverSends => exact facesSends faces next
      | serverReceives size => exact facesTakes faces next
      | receives c size =>
        obtain rfl : c = honest := of_decide_eq_true ours
        exact facesReceives faces next
      | types c q =>
        obtain rfl : c = honest := of_decide_eq_true ours
        exact facesTypes faces next
      | sends c =>
        obtain rfl : c = honest := of_decide_eq_true ours
        exact facesReturns faces next
      | stops party => exact facesStops faces next
    · cases next

theorem reachableFaces {labels : List (Action × List Move)} (run : Run (facing honest randNum) labels s) :
    ∃ spot board, Faces honest randNum (moves labels) spot board s := by
  induction run with
  | start first => exact ⟨_, _, connectedFaces first⟩
  | step before next ih =>
    obtain ⟨spot, board, faces⟩ := ih
    obtain ⟨spot', board', faces'⟩ := facesStep faces next
    exact ⟨spot', board', by simpa [moves] using faces'⟩

end Steps
end Warcaby.Stranger
