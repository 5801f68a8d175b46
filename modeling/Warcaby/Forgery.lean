import Warcaby.Relay
import Warcaby.Stranger

/-! What a stranger at the other seat can do. It can show the honest client any board it
likes, move after move, and it can make either program read past its data. -/
namespace Warcaby.Forgery
open ByteStream Tlv Wire MakeMove Stranger
open Grid (flatten)
open Server (Client choosePlayersPawns)
open Session (State Move moves)
open Unreliable (Exited)
open Transition (Run Steps)

/- A moment at which nothing of the stranger's is unread. -/
structure Point (honest : Client) (randNum : Nat) (server : Server.Phase) (board : Board)
    (phase : Klient.Phase) (held : Board) (down up : List Byte) (s : State) : Prop where
  server : s.server.phase = server
  drawn : s.server.randNum = randNum
  board : s.server.board = board
  phase : (s.klient honest).phase = phase
  colour : (s.klient honest).playerChar = choosePlayersPawns randNum honest
  held : (s.klient honest).board = held
  down : s.toKlient honest = down
  up : s.toServer honest = up
  read : s.toServer honest.other = []
  running : ¬ Exited s (.client honest.other)

/- Some steps from here make these moves and end with `P`. -/
def Leads (honest : Client) (randNum : Nat) (s : State) (made : List Move) (P : State → Prop) : Prop :=
  ∃ labels t, Steps (facing honest randNum) s labels t ∧ moves labels = made ∧ P t

section Leading
variable {honest : Client} {randNum : Nat} {s t : State} {made more : List Move} {P Q : State → Prop}

theorem leadsOne {a : Action} (does : act honest s a = some (made,t)) (holds : P t) :
    Leads honest randNum s made P := by
  have happened : (facing honest randNum).step s (a,made) t := does
  exact ⟨[(a,made)], t, Transition.stepsOne happened, List.append_nil made, holds⟩

theorem leadsThen (first : Leads honest randNum s made P)
    (later : ∀ t, P t → Leads honest randNum t more Q) : Leads honest randNum s (made ++ more) Q := by
  obtain ⟨labels, t, steps, quiet, holds⟩ := first
  obtain ⟨labels', u, steps', quiet', holds'⟩ := later t holds
  refine ⟨labels ++ labels', u, Transition.stepsAppend steps steps', ?_, holds'⟩
  rw [← quiet, ← quiet']
  exact List.flatMap_append

theorem leadsRun {labels : List (Action × List Move)} (run : Run (facing honest randNum) labels s)
    (leads : Leads honest randNum s made P) :
    ∃ labels' t, Run (facing honest randNum) labels' t ∧ moves labels' = moves labels ++ made ∧ P t := by
  obtain ⟨more, t, steps, rfl, holds⟩ := leads
  exact ⟨labels ++ more, t, Transition.runSteps run steps, List.flatMap_append, holds⟩

end Leading

section Points
variable {honest : Client} {randNum : Nat} {board held : Board} {s : State}

theorem sendsBoard {c : Client} (phase : s.server.phase = .sending c) :
    act honest s (.usual .serverSends) = some ([],{s with
      server := {s.server with phase := .receiving c},
      toKlient := Function.update s.toKlient c (s.toKlient c ++ boardFrame s.server.board)}) := by
  simp only [act, others, if_true, Unreliable.act, Session.act, Server.send, phase,
    Option.bind_eq_bind, Option.bind_some]

theorem boardSent (point : Point honest randNum (.sending honest) board .receiving held [] [] s) :
    Leads honest randNum s []
      (Point honest randNum (.receiving honest) board .receiving held (boardFrame board) []) := by
  refine leadsOne (sendsBoard point.server) ⟨rfl, point.drawn, point.board, point.phase, point.colour,
    point.held, ?_, point.up, point.read, point.running⟩
  simp only [Function.update_self, point.down, point.board, List.nil_append]

theorem strangerSent (point : Point honest randNum (.sending honest.other) board .receiving held [] [] s) :
    Leads honest randNum s []
      (Point honest randNum (.receiving honest.other) board .receiving held [] []) := by
  refine leadsOne (sendsBoard point.server) ⟨rfl, point.drawn, point.board, point.phase, point.colour,
    point.held, ?_, point.up, point.read, point.running⟩
  exact (Function.update_of_ne (otherApart honest).symm ..).trans point.down

def frameChunk (board : Board) : Chunk := ⟨boardFrame board,frameFits board⟩

theorem frameWhole (board : Board) : (frameChunk board).bytes = boardFrame board := rfl

theorem frameTaken {next : Klient.State}
    (point : Point honest randNum (.receiving honest) board .receiving held (boardFrame board) [] s)
    (received : Klient.receive (s.klient honest) (frameChunk board) = some next) :
    act honest s (.usual (.receives honest bufferSize)) = some ([],{s with
      klient := Function.update s.klient honest next,
      toKlient := Function.update s.toKlient honest []}) := by
  have wanted : Klient.wanted (s.klient honest) = bufferSize := if_neg (by simp [point.phase])
  have whole : Unreliable.klientRecv (s.klient honest) (Exited s .server) (s.toKlient honest) bufferSize =
      some (frameChunk board,[]) := by
    simp only [Unreliable.klientRecv, wanted, point.down]
    exact Unreliable.wholePart (by decide) (Unreliable.frameWhole rfl)
  simp only [act, others, decide_true, if_true, Unreliable.act, whole, received,
    Option.bind_eq_bind, Option.bind_some]

theorem boardRead (sound : Sound board)
    (point : Point honest randNum (.receiving honest) board .receiving held (boardFrame board) [] s) :
    Leads honest randNum s []
      (Point honest randNum (.receiving honest) board (.moving []) board [] []) := by
  obtain ⟨next, received, moving, held', kept⟩ :=
    Klient.receiveDelivered point.phase (soundDelivers sound (frameWhole board))
  refine leadsOne (frameTaken point received) ⟨point.server, point.drawn, point.board, ?_, ?_, ?_,
    Function.update_self .., point.up, point.read, ?_⟩
  · simpa using moving
  · simpa using kept.trans point.colour
  · simpa using held'
  · simpa [Exited, otherApart honest] using point.running

theorem typesFacing {labels : List (Session.Action × List Move)} {t : State} {qs : List Coordinates}
    (steps : Steps (Session.distributed randNum) s labels t)
    (types : labels.map Prod.fst = qs.map (.types honest)) :
    ∃ labels', Steps (facing honest randNum) s labels' t ∧ moves labels' = moves labels := by
  induction steps generalizing qs with
  | nil => exact ⟨[], .nil _, rfl⟩
  | @cons s l u labels t next _ ih =>
    obtain ⟨a, made⟩ := l
    obtain ⟨q, rest, rfl, rfl, more⟩ := List.map_eq_cons_iff.mp types.symm
    obtain ⟨labels', later, same⟩ := ih more.symm
    have typed : Session.act s (.types honest q) = some (made,u) := next
    have does : act honest s (.usual (.types honest q)) = some (made,u) := by
      simpa only [act, others, decide_true, if_true, Unreliable.act] using typed
    have happened : (facing honest randNum).step s (.usual (.types honest q),made) u := does
    exact ⟨_ :: labels', .cons happened later, congrArg (made ++ ·) same⟩

theorem moveMade {m : Move} (unchecked : Unchecked honest randNum m) (shown : m.before = board)
    (point : Point honest randNum (.receiving honest) board (.moving []) board [] [] s) :
    Leads honest randNum s [m]
      (Point honest randNum (.receiving honest) board .sending m.turn.board [] []) := by
  have returns := unchecked.returns
  obtain ⟨qs, split, waits⟩ := Replay.returnsInputs returns unchecked.last
  rw [shown, ← point.held, ← point.colour] at waits returns
  rw [split] at returns
  have early : makeMove (s.klient honest).board (s.klient honest).playerChar ([] ++ qs) = .ok none := waits
  obtain ⟨labels, steps, types, made⟩ := Replay.typesReturning randNum point.phase early returns
  obtain ⟨labels', steps', same⟩ := typesFacing steps types
  refine ⟨labels', _, steps', ?_, point.server, point.drawn, point.board, ?_, ?_, ?_, point.down,
    point.up, point.read, ?_⟩
  · rw [same, made, point.held, ← shown, List.nil_append, ← split, ← unchecked.mine]
  · simp
  · simpa using point.colour
  · simp
  · simpa [Exited, otherApart honest] using point.running

theorem boardReturned {result : Board}
    (point : Point honest randNum (.receiving honest) board .sending result [] [] s) :
    Leads honest randNum s []
      (Point honest randNum (.receiving honest) board .receiving result [] (boardFrame result)) := by
  have does : act honest s (.usual (.sends honest)) = some ([],{s with
      klient := Function.update s.klient honest {s.klient honest with phase := .receiving},
      toServer := Function.update s.toServer honest
        (s.toServer honest ++ boardFrame (s.klient honest).board)}) := by
    simp only [act, others, decide_true, if_true, Unreliable.act, Session.act, Klient.send, point.phase,
      Option.bind_eq_bind, Option.bind_some]
  refine leadsOne does ⟨point.server, point.drawn, point.board, ?_, ?_, ?_, point.down, ?_, ?_, ?_⟩
  · simp
  · simpa using point.colour
  · simpa using point.held
  · simp [point.up, point.held]
  · simpa [otherApart honest] using point.read
  · simpa [Exited, otherApart honest] using point.running

theorem boardStored {result : Board} (sound : Sound result)
    (point : Point honest randNum (.receiving honest) board .receiving result [] (boardFrame result) s) :
    Leads honest randNum s []
      (Point honest randNum (.sending honest.other) result .receiving result [] []) := by
  obtain ⟨next, received, sending, stored, kept⟩ :=
    Server.receiveDelivered point.server (soundDelivers sound (frameWhole result))
  have whole : Unreliable.recvPart bufferSize (Nat.le_refl _) (Exited s (.client honest))
      (s.toServer honest) bufferSize = some (frameChunk result,[]) := by
    rw [point.up]
    exact Unreliable.wholePart (by decide) (Unreliable.frameWhole rfl)
  have does : act honest s (.usual (.serverReceives bufferSize)) = some ([],{s with
      server := next, toServer := Function.update s.toServer honest []}) := by
    simp only [act, others, if_true, Unreliable.act, point.server, whole, received,
      Option.bind_eq_bind, Option.bind_some]
  refine leadsOne does ⟨sending, kept.trans point.drawn, stored, point.phase, point.colour, point.held,
    point.down, Function.update_self .., ?_, point.running⟩
  exact (Function.update_of_ne (otherApart honest) ..).trans point.read

theorem takesWritten {next : Server.State} {events : List Server.Event} {chunk : Chunk}
    (point : Point honest randNum (.receiving honest.other) board .receiving held [] [] s)
    (occupied : chunk.bytes ≠ []) (received : Server.receive s.server chunk = some (events,next)) :
    Leads honest randNum s [] (fun t => t = {s with server := next}) := by
  let wrote : State := {s with
    toServer := Function.update s.toServer honest.other (s.toServer honest.other ++ chunk.bytes)}
  have writes : act honest s (.writes chunk.bytes) = some ([],wrote) := if_neg point.running
  have there : wrote.toServer honest.other = chunk.bytes := by
    simp only [wrote, Function.update_self, point.read, List.nil_append]
  have whole : Unreliable.recvPart bufferSize (Nat.le_refl _) (Exited wrote (.client honest.other))
      (wrote.toServer honest.other) bufferSize = some (chunk,[]) := by
    rw [there]
    refine Unreliable.wholePart (by decide) (Unreliable.partWhole occupied ?_ ?_)
    · rw [List.take_of_length_le chunk.bounded]
    · rw [List.drop_of_length_le chunk.bounded]
  have phase : wrote.server.phase = .receiving honest.other := point.server
  have received' : Server.receive wrote.server chunk = some (events,next) := received
  have does : act honest wrote (.usual (.serverReceives bufferSize)) = some ([],{wrote with
      server := next, toServer := Function.update wrote.toServer honest.other []}) := by
    simp only [act, others, if_true, Unreliable.act, phase, whole, received', Option.bind_eq_bind,
      Option.bind_some]
  refine leadsThen (leadsOne writes rfl) (fun t same => ?_)
  subst same
  refine leadsOne does ?_
  have read := point.read
  simp only [wrote, Function.update_idem, ← read, Function.update_eq_self]

def boardChunk (board : Board) : Chunk := ⟨0x01 :: 64 :: flatten board,by simp [bufferSize]⟩

theorem boardDelivers (board : Board) : Delivers (boardChunk board) board := by
  have length : (flatten board).length = 64 := Grid.flattenLength board
  refine ⟨⟨_, decoded.mpr ⟨?_, ?_, rfl⟩⟩, ?_, ?_⟩
  · simp [boardChunk]
  · simp [boardChunk, length]
  · simp [boardChunk, payload, length]
  · have cells := boardOfFlatten board []
    rw [List.append_nil] at cells
    exact cells.symm

theorem boardForged (board' : Board)
    (point : Point honest randNum (.receiving honest.other) board .receiving held [] [] s) :
    Leads honest randNum s [] (Point honest randNum (.sending honest) board' .receiving held [] []) := by
  obtain ⟨next, received, sending, stored, kept⟩ :=
    Server.receiveDelivered point.server (boardDelivers board')
  obtain ⟨labels, t, steps, quiet, rfl⟩ := takesWritten point (List.cons_ne_nil _ _) received
  rw [Client.otherOther] at sending
  exact ⟨labels, _, steps, quiet, sending, kept.trans point.drawn, stored, point.phase, point.colour,
    point.held, point.down, point.up, point.read, point.running⟩

end Points

section Games
variable {honest : Client} {randNum : Nat} {board held : Board} {s : State} {done : List Move} {m : Move}

theorem uncheckedSound (unchecked : Unchecked honest randNum m) : Sound m.turn.board := by
  have returns := unchecked.returns
  rw [Session.assignedMan] at returns
  exact soundMoved unchecked.sound returns

theorem roundPlayed (unchecked : Unchecked honest randNum m)
    (point : Point honest randNum (.sending honest) m.before .receiving held [] [] s) :
    Leads honest randNum s [m]
      (Point honest randNum (.sending honest.other) m.turn.board .receiving m.turn.board [] []) := by
  have asked := leadsThen (boardSent point) (fun _ => boardRead unchecked.sound)
  have played := leadsThen asked (fun _ => moveMade unchecked rfl)
  have sent := leadsThen played (fun _ => boardReturned)
  exact leadsThen sent (fun _ => boardStored (uncheckedSound unchecked))

def accepted (randNum : Nat) : State := {Session.connected with server := Server.accepted randNum}

theorem openingCalls (honest : Client) (randNum : Nat) :
    ∃ labels t, Transition.doAll (act honest) (accepted randNum)
        [.usual .serverSends,.usual .serverSends,.usual (.receives honest 1)] = some (labels,t) ∧
      moves labels = [] ∧
      Point honest randNum (.sending .one) initializeBoard .receiving initializeBoard [] [] t := by
  cases honest with
  | one =>
    exact ⟨_, _, rfl, rfl, rfl, rfl, rfl, rfl, rfl, rfl, rfl, rfl, rfl,
      fun exited => absurd (show Klient.Phase.colour = .exited from exited) (by decide)⟩
  | two =>
    exact ⟨_, _, rfl, rfl, rfl, rfl, rfl, rfl, rfl, rfl, rfl, rfl, rfl,
      fun exited => absurd (show Klient.Phase.colour = .exited from exited) (by decide)⟩

theorem gameOpened (honest : Client) (randNum : Nat) :
    ∃ labels s, Run (facing honest randNum) labels s ∧ moves labels = [] ∧
      Point honest randNum (.sending .one) initializeBoard .receiving initializeBoard [] [] s := by
  have first : Run (facing honest randNum) [] (accepted randNum) :=
    .start ⟨rfl, fun _ => ⟨rfl, rfl⟩, fun _ => ⟨rfl, rfl⟩⟩
  obtain ⟨labels, t, happen, quiet, point⟩ := openingCalls honest randNum
  have steps := Transition.doAllSteps (M := facing honest randNum) (fun _ _ _ _ does => does) happen
  exact ⟨labels, t, Transition.runSteps first steps, quiet, point⟩

theorem forgedInit (forged : Forged honest randNum (done ++ [m])) : Forged honest randNum done where
  moves := fun n member => forged.moves n (List.mem_append_left _ member)
  opening := by
    intro first n head
    refine forged.opening first n ?_
    cases done with
    | nil => cases head
    | cons d rest => exact head

def following (honest : Client) (done : List Move) : Client :=
  if done = [] then .one else honest.other

theorem followingOther (stranger : dealt honest done ≠ []) : following honest done = honest.other := by
  cases honest with
  | one =>
    have some' : done ≠ [] := fun none => stranger (dealtNone rfl none)
    exact if_neg some'
  | two =>
    unfold following
    split <;> rfl

theorem dealtEmpty (empty : dealt honest done = []) : honest = .one ∧ done = [] := by
  cases honest with
  | one => exact ⟨rfl, by simpa [dealt] using empty⟩
  | two => simp [dealt] at empty

theorem showsNext (forged : Forged honest randNum (done ++ [m]))
    (point : Point honest randNum (.sending (following honest done)) board .receiving held [] [] s)
    (opening : done = [] → board = initializeBoard) :
    Leads honest randNum s [] (Point honest randNum (.sending honest) m.before .receiving held [] []) := by
  by_cases first : dealt honest done = []
  · obtain ⟨rfl, rfl⟩ := dealtEmpty first
    have before : m.before = initializeBoard := forged.opening rfl m rfl
    rw [opening rfl, ← before] at point
    exact ⟨[], s, .nil s, rfl, point⟩
  · rw [followingOther first] at point
    exact leadsThen (strangerSent point) (fun _ => boardForged m.before)

theorem realised (forged : Forged honest randNum done) :
    ∃ labels s board held, Run (facing honest randNum) labels s ∧ moves labels = done ∧
      (done = [] → board = initializeBoard) ∧
      Point honest randNum (.sending (following honest done)) board .receiving held [] [] s := by
  induction done using List.reverseRecOn with
  | nil =>
    obtain ⟨labels, s, run, quiet, point⟩ := gameOpened honest randNum
    exact ⟨labels, s, _, _, run, quiet, fun _ => rfl, point⟩
  | append_singleton done m ih =>
    obtain ⟨labels, s, board, held, run, made, opening, point⟩ := ih (forgedInit forged)
    have unchecked := forged.moves m (by simp)
    have leads := leadsThen (showsNext forged point opening) (fun _ => roundPlayed unchecked)
    obtain ⟨labels', t, run', made', point'⟩ := leadsRun run leads
    have next : following honest (done ++ [m]) = honest.other := if_neg (by simp)
    rw [← next] at point'
    exact ⟨labels', t, _, _, run', by rw [made', made]; rfl, fun none => absurd none (by simp), point'⟩

theorem strangersTurn (forged : Forged honest randNum done) (stranger : dealt honest done ≠ []) :
    ∃ labels s board held, Run (facing honest randNum) labels s ∧ moves labels = done ∧
      Point honest randNum (.receiving honest.other) board .receiving held [] [] s := by
  obtain ⟨labels, s, board, held, run, made, _, point⟩ := realised forged
  rw [followingOther stranger] at point
  obtain ⟨labels', t, run', made', point'⟩ := leadsRun run (strangerSent point)
  exact ⟨labels', t, board, held, run', by rw [made', made, List.append_nil], point'⟩

/- What the stranger has been sent: its colour and the boards, but for the newest. -/
def Passed (honest : Client) (randNum : Nat) (done : List Move) (bytes : List Byte) : Prop :=
  (done = [] ∧ bytes = []) ∨ ∃ boards newest, boards ++ newest = dealt honest done ∧ newest.length ≤ 1 ∧
    bytes = handed honest randNum boards

theorem spotPassed {spot : Spot} (fits : spot.Fits honest done board) :
    Passed honest randNum done (spot.sent honest randNum done) := by
  have all : Passed honest randNum done (handed honest randNum (dealt honest done)) :=
    .inr ⟨_, [], List.append_nil _, Nat.zero_le _, rfl⟩
  have but (last : (dealt honest done).getLast? = some board) :
      Passed honest randNum done (handed honest randNum (dealt honest done).dropLast) :=
    .inr ⟨_, [board], List.dropLast_append_getLast? board last, Nat.le_refl _, rfl⟩
  cases spot with
  | colours c =>
    obtain ⟨rfl, rfl⟩ := fits
    cases c with
    | one => exact .inl ⟨rfl, rfl⟩
    | two =>
      cases honest with
      | one => exact .inl ⟨rfl, rfl⟩
      | two => exact .inr ⟨[], [initializeBoard], rfl, Nat.le_refl _, rfl⟩
  | mine stage =>
    cases stage with
    | waiting | offered | thinking => exact all
    | moved | returned => exact but fits.2
  | leaving => exact but fits
  | away => exact all

theorem pointRunning {server : Server.Phase} {phase : Klient.Phase} {down up : List Byte}
    (point : Point honest randNum server board phase held down up s)
    (busy : server ≠ .exited ∧ ∀ fault, server ≠ .undefined fault) : ¬ Stopped s := by
  rintro (exited | ⟨k, _, _, undefined⟩)
  · exact busy.1 (point.server.symm.trans exited)
  · exact busy.2 _ (point.server.symm.trans undefined)

theorem spotAll {spot : Spot} {server : Server.Phase} (same : server = spot.phase honest)
    (asks : server = .receiving honest.other ∨ server = .sending honest) :
    spot.sent honest randNum done = handed honest randNum (dealt honest done) := by
  subst same
  cases spot with
  | colours c => rcases asks with asks | asks <;> cases asks
  | mine stage =>
    cases stage with
    | waiting | offered | thinking => rfl
    | moved | returned => cases honest <;> rcases asks with asks | asks <;> cases asks
  | leaving => cases honest <;> rcases asks with asks | asks <;> cases asks
  | away => rfl

theorem allPassed {labels : List (Action × List Move)} {server : Server.Phase} {phase : Klient.Phase}
    {down up : List Byte} (run : Run (facing honest randNum) labels s)
    (point : Point honest randNum server board phase held down up s)
    (asks : server = .receiving honest.other ∨ server = .sending honest) :
    s.toKlient honest.other = handed honest randNum (dealt honest (moves labels)) := by
  have busy : server ≠ .exited ∧ ∀ fault, server ≠ .undefined fault := by
    rcases asks with rfl | rfl <;> simp
  obtain ⟨spot, board', faces⟩ := reachableFaces run
  obtain ⟨same, _⟩ := faces.server.resolve_left (pointRunning point busy)
  rw [faces.sent]
  exact spotAll (point.server.symm.trans same) asks

theorem stranger (honest : Client) (randNum : Nat) :
    (∀ labels s, Run (facing honest randNum) labels s →
      Forged honest randNum (moves labels) ∧
        Passed honest randNum (moves labels) (s.toKlient honest.other)) ∧
    (∀ done, Forged honest randNum done →
      ∃ labels s, Run (facing honest randNum) labels s ∧ moves labels = done ∧
        s.toKlient honest.other = handed honest randNum (dealt honest done)) := by
  constructor
  · intro labels s run
    obtain ⟨spot, board, faces⟩ := reachableFaces run
    refine ⟨faces.forged, ?_⟩
    rw [faces.sent]
    exact spotPassed faces.fits
  · intro done forged
    by_cases first : dealt honest done = []
    · obtain ⟨rfl, rfl⟩ := dealtEmpty first
      obtain ⟨labels, s, run, quiet, point⟩ := gameOpened .one randNum
      have passed := allPassed run point (.inr rfl)
      rw [quiet] at passed
      exact ⟨labels, s, run, quiet, passed⟩
    · obtain ⟨labels, s, board, held, run, rfl, point⟩ := strangersTurn forged first
      exact ⟨labels, s, run, rfl, allPassed run point (.inl rfl)⟩

end Games

section Faults
variable {honest : Client} {randNum : Nat} {board held : Board} {s : State} {done : List Move}

/- A board that `strlen` cuts after `n` cells. -/
def cutBoard (n : Nat) : Board := boardOfBytes (List.replicate n blank ++ List.replicate 65 nul)

theorem cutLength {n : Nat} (small : n ≤ 64) : strlen (flatten (cutBoard n)) = n := by
  have cells : flatten (cutBoard n) = List.replicate n blank ++ List.replicate (64 - n) nul := by
    rw [cutBoard, Relay.flattenBytes (by simp), List.take_append, List.take_of_length_le (by simpa using small),
      List.take_replicate, List.length_replicate, Nat.min_eq_left (by omega)]
  rw [cells]
  refine (strlenPadding _ _).trans ((strlenClean ?_).trans List.length_replicate)
  intro b member
  rw [List.eq_of_mem_replicate member]
  decide

theorem cutOverruns {n : Nat} (short : n < 63) : Overruns (frameChunk (cutBoard n)) ∧
    (payload (frameChunk (cutBoard n))).length = n := by
  have length : strlen (flatten (cutBoard n)) = n := cutLength (by omega)
  constructor
  · refine unsoundOverruns (fun sound => ?_) (frameWhole _)
    rw [soundLength, length] at sound
    omega
  · rw [(framePayload (frameWhole (cutBoard n))).2, length, List.length_take, Grid.flattenLength]
    omega

theorem clientFails {n : Nat} (short : n < 63)
    (point : Point honest randNum (.receiving honest.other) board .receiving held [] [] s) :
    Leads honest randNum s [] (fun t => (t.klient honest).phase = .undefined (.pastEnd (n + 1))) := by
  obtain ⟨overruns, length⟩ := cutOverruns short
  refine leadsThen (leadsThen (boardForged (cutBoard n) point) (fun _ => boardSent)) (fun t asked => ?_)
  obtain ⟨next, received, failed⟩ : ∃ next, Klient.receive (t.klient honest) (frameChunk (cutBoard n)) =
      some next ∧ next.phase = .undefined (.pastEnd (n + 1)) := by
    simp only [Klient.receive, asked.phase, storeOverrunAt overruns, length]
    exact ⟨_, rfl, rfl⟩
  exact leadsOne (frameTaken asked received) (by simpa using failed)

def shortChunk (n : Nat) (short : n < 63) : Chunk :=
  ⟨0x01 :: UInt8.ofNat n :: List.replicate n blank,by simp [bufferSize]; omega⟩

theorem shortOverruns {n : Nat} (short : n < 63) : Overruns (shortChunk n short) ∧
    (payload (shortChunk n short)).length = n := by
  have length : (payload (shortChunk n short)).length = n := by simp [payload, shortChunk]
  refine ⟨⟨⟨_, decoded.mpr ⟨?_, ?_, rfl⟩⟩, by rwa [length]⟩, length⟩
  · simp [shortChunk]
  · have byte : (UInt8.ofNat n).toNat = n := lengthByte (by omega)
    simp only [shortChunk, List.length_cons, List.length_replicate, List.getD_cons_succ,
      List.getD_cons_zero, byte]
    omega

theorem serverFails {n : Nat} (short : n < 63)
    (point : Point honest randNum (.receiving honest.other) board .receiving held [] [] s) :
    Leads honest randNum s [] (fun t => t.server.phase = .undefined (.pastEnd (n + 1))) := by
  obtain ⟨overruns, length⟩ := shortOverruns short
  obtain ⟨events, next, received, failed⟩ : ∃ events next,
      Server.receive s.server (shortChunk n short) = some (events,next) ∧
      next.phase = .undefined (.pastEnd (n + 1)) := by
    simp only [Server.receive, point.server, storeOverrunAt overruns, length]
    exact ⟨_, _, rfl, rfl⟩
  obtain ⟨labels, t, steps, quiet, rfl⟩ := takesWritten point (List.cons_ne_nil _ _) received
  exact ⟨labels, _, steps, quiet, failed⟩

theorem clientFault {spot : Stranger.Spot} {fault : Fault}
    (faces : Faces honest randNum done spot board s)
    (failed : (s.klient honest).phase = .undefined fault) :
    ∃ k, 1 ≤ k ∧ k ≤ 63 ∧ fault = .pastEnd k := by
  rcases faces.seat with (exited | ⟨_, receiving, _⟩ | ⟨up, shows'⟩) | ⟨_, k, low, high, crashed⟩
  · cases failed.symm.trans exited
  · cases failed.symm.trans receiving
  · rcases Token.showsCases shows' with (phase | phase) | ⟨_, typed, phase⟩ | ⟨_, phase⟩ <;>
      cases failed.symm.trans phase
  · cases failed.symm.trans crashed
    exact ⟨k, low, high, rfl⟩

theorem serverFault {spot : Stranger.Spot} {fault : Fault}
    (faces : Faces honest randNum done spot board s) (failed : s.server.phase = .undefined fault) :
    ∃ k, 1 ≤ k ∧ k ≤ 63 ∧ fault = .pastEnd k := by
  rcases faces.server with (exited | ⟨k, low, high, crashed⟩) | ⟨phase, _⟩
  · cases failed.symm.trans exited
  · cases failed.symm.trans crashed
    exact ⟨k, low, high, rfl⟩
  · cases spot with
    | mine stage => cases stage <;> cases failed.symm.trans phase
    | colours | leaving | away => cases failed.symm.trans phase

theorem overread (honest : Client) (randNum : Nat) (fault : Fault) :
    (∀ labels s, Run (facing honest randNum) labels s →
      (s.klient honest).phase = .undefined fault ∨ s.server.phase = .undefined fault →
      ∃ k, 1 ≤ k ∧ k ≤ 63 ∧ fault = .pastEnd k) ∧
    ∀ done, Forged honest randNum done → dealt honest done ≠ [] →
      ((∃ labels s, Run (facing honest randNum) labels s ∧ moves labels = done ∧
          (s.klient honest).phase = .undefined fault) ↔ ∃ k, 1 ≤ k ∧ k ≤ 63 ∧ fault = .pastEnd k) ∧
      ((∃ labels s, Run (facing honest randNum) labels s ∧ moves labels = done ∧
          s.server.phase = .undefined fault) ↔ ∃ k, 1 ≤ k ∧ k ≤ 63 ∧ fault = .pastEnd k) := by
  have bounded {labels s} (run : Run (facing honest randNum) labels s)
      (failed : (s.klient honest).phase = .undefined fault ∨ s.server.phase = .undefined fault) :
      ∃ k, 1 ≤ k ∧ k ≤ 63 ∧ fault = .pastEnd k := by
    obtain ⟨spot, board, faces⟩ := reachableFaces run
    exact failed.elim (clientFault faces) (serverFault faces)
  refine ⟨fun _ _ => bounded, fun done forged stranger => ?_⟩
  obtain ⟨labels, s, board, held, run, made, point⟩ := strangersTurn forged stranger
  refine ⟨⟨?_, ?_⟩, ⟨?_, ?_⟩⟩
  · rintro ⟨_, _, run, _, failed⟩
    exact bounded run (.inl failed)
  · rintro ⟨k, low, high, rfl⟩
    obtain ⟨labels', t, run', made', failed⟩ :=
      leadsRun run (clientFails (n := k - 1) (by omega) point)
    rw [Nat.sub_add_cancel low] at failed
    exact ⟨labels', t, run', by rw [made', made, List.append_nil], failed⟩
  · rintro ⟨_, _, run, _, failed⟩
    exact bounded run (.inr failed)
  · rintro ⟨k, low, high, rfl⟩
    obtain ⟨labels', t, run', made', failed⟩ :=
      leadsRun run (serverFails (n := k - 1) (by omega) point)
    rw [Nat.sub_add_cancel low] at failed
    exact ⟨labels', t, run', by rw [made', made, List.append_nil], failed⟩

theorem overreadOpening : ∃ labels s, Run (facing .two 0) labels s ∧ moves labels = [] ∧
    (s.klient .two).phase = .undefined (.pastEnd 1) :=
  ((overread .two 0 (.pastEnd 1)).2 [] (forgedNone .two 0) (by simp [dealt])).1.mpr
    ⟨1, by decide, by decide, rfl⟩

end Faults
end Warcaby.Forgery
