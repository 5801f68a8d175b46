import Warcaby.Rounds
import Warcaby.Rulebook

/-! A game is a function of what the two players type. Which quadruples a client has
read decides the moves, whatever the order of steps; and every game on one board
happens over the network. -/
namespace Warcaby.Replay
open Tlv MakeMove Rule Turn Session Token
open Rounds (silent outstanding Resting)
open Server (Client choosePlayersPawns)
open Rulebook (LegalMove makeMoveWaits)
open Transition (Run Steps)

def typedBy (c : Client) (labels : List (Action × List Move)) : List Coordinates :=
  labels.flatMap (fun l => match l.1 with
    | .types d q => if d = c then [q] else []
    | _ => [])

def inputsOf (c : Client) (done : List Move) : List Coordinates :=
  done.flatMap (fun m => if m.client = c then m.inputs else [])

/- The game on one board, every call reading on where the last one of the same player
stopped, for at most so many calls. -/
def playOut (randNum : Nat) : Nat → Board → Client → (Client → List Coordinates) → List Move
  | 0, _, _, _ => []
  | n + 1, board, c, scripts =>
    match makeMove board (choosePlayersPawns randNum c) (scripts c) with
    | .ok (some turn) =>
      let read := (scripts c).take ((scripts c).length - turn.rest.length)
      ⟨c,board,read,{turn with rest := []}⟩ ::
        playOut randNum n turn.board c.other (Function.update scripts c turn.rest)
    | _ => []

-- Every call reads something.
def replay (randNum : Nat) (scripts : Client → List Coordinates) : List Move :=
  playOut randNum ((scripts .one).length + (scripts .two).length) initializeBoard .one scripts

theorem typedByAppend (c : Client) (labels more : List (Action × List Move)) :
    typedBy c (labels ++ more) = typedBy c labels ++ typedBy c more := List.flatMap_append

theorem inputsAppend (c : Client) (done more : List Move) :
    inputsOf c (done ++ more) = inputsOf c done ++ inputsOf c more := List.flatMap_append

section Calls
variable {board : Board} {player : Byte} {qs : List Coordinates} {q : Coordinates} {t : MakeMove.Turn}

theorem makeMoveMore (returns : makeMove board player qs = .ok (some t)) (more : List Coordinates) :
    makeMove board player (qs ++ more) = .ok (some {t with rest := t.rest ++ more}) := by
  induction qs generalizing t with
  | nil => cases returns
  | cons typed rest ih =>
    rcases passVerdict board player typed with ⟨m, _, _, performs⟩ | ⟨_, refuses⟩
    · simp only [makeMove, performs, performed, okBind] at returns
      cases returns
      simp only [List.cons_append, makeMove, performs, performed, okBind]
      rfl
    · obtain ⟨r, passed, incorrect, same⟩ := refuses
      simp only [makeMove, passed, okBind, incorrect, same] at returns
      obtain ⟨out, later⟩ := makeMoveNoFault board player rest
      cases out with
      | none => simp [later] at returns
      | some u =>
        simp only [later, okBind, Option.map_some] at returns
        cases returns
        simp [makeMove, passed, incorrect, same, ih later]

theorem returnsLast (waits : makeMove board player qs = .ok none)
    (returns : makeMove board player (qs ++ [q]) = .ok (some t)) : t.rest = [] ∧ t.typed = q := by
  obtain ⟨m, returned⟩ := makeMoveReturned returns
  obtain ⟨before, split, _⟩ := returned.split
  rcases List.eq_nil_or_concat t.rest with none | ⟨init, last, more⟩
  · rw [none] at split
    exact ⟨none, (List.cons.inj (List.append_inj' split rfl).2).1.symm⟩
  · rw [more, List.concat_eq_append, ← List.cons_append, ← List.append_assoc] at split
    have early : qs = before ++ t.typed :: init := (List.append_inj' split rfl).1
    exact absurd returned.legal
      (makeMoveWaits.mp waits t.typed (by simp [early]) m returned.typed.symm)

theorem returnsInputs (returns : makeMove board player qs = .ok (some t)) (all : t.rest = []) :
    ∃ before, qs = before ++ [t.typed] ∧ makeMove board player before = .ok none := by
  obtain ⟨m, returned⟩ := makeMoveReturned returns
  obtain ⟨before, split, rejections⟩ := returned.split
  rw [all] at split
  exact ⟨before, split, makeMoveWaits.mpr rejections⟩

theorem waitsPrefix {more : List Coordinates} (waits : makeMove board player (qs ++ more) = .ok none) :
    makeMove board player qs = .ok none :=
  makeMoveWaits.mpr (fun q member => makeMoveWaits.mp waits q (List.mem_append_left _ member))

end Calls

section Typing
variable {randNum : Nat} {labels more : List (Action × List Move)} {s t : State} {a : Action}
  {made : List Move} {c d : Client}

def Waits (k : Klient.State) : Prop :=
  makeMove k.board k.playerChar (typedSoFar k) = .ok none

theorem waitsFresh {k : Klient.State} (fresh : typedSoFar k = []) : Waits k := by
  unfold Waits
  rw [fresh]
  rfl

theorem typedOfPhase {k : Klient.State} (idle : ∀ typed, k.phase ≠ .moving typed) :
    typedSoFar k = [] := by
  unfold typedSoFar
  split
  · rename_i typed moving
    exact absurd moving (idle typed)
  · rfl

theorem receivedFresh {k next : Klient.State} {chunk : Chunk}
    (received : Klient.receive k chunk = some next) : typedSoFar k = [] ∧ typedSoFar next = [] := by
  unfold Klient.receive at received
  split at received
  · rename_i phase
    cases Option.some.inj received
    exact ⟨typedOfPhase (by simp [phase]), rfl⟩
  · rename_i phase
    refine ⟨typedOfPhase (by simp [phase]), ?_⟩
    dsimp only at received
    split at received <;> cases Option.some.inj received <;> rfl
  · cases received

theorem sentFresh {k next : Klient.State} {bytes : List Byte}
    (sent : Klient.send k = some (bytes,next)) : typedSoFar k = [] ∧ typedSoFar next = [] := by
  unfold Klient.send at sent
  split at sent
  · rename_i phase
    cases Option.some.inj sent
    exact ⟨typedOfPhase (by simp [phase]), rfl⟩
  · cases sent

theorem scannedTyped {k next : Klient.State} {q : Coordinates} {turn : Option MakeMove.Turn}
    (scanned : Klient.scan k q = some (turn,next)) :
    (turn = none ∧ typedSoFar next = typedSoFar k ++ [q] ∧ Waits next) ∨
    ∃ t, turn = some t ∧ typedSoFar next = [] ∧
      makeMove k.board k.playerChar (typedSoFar k ++ [q]) = .ok (some t) := by
  cases phase : k.phase with
  | moving typed =>
    have soFar : typedSoFar k = typed := by simp only [typedSoFar, phase]
    rcases Klient.scanCases (q := q) phase with ⟨waits, same⟩ | ⟨t, returns, same⟩
    · cases Option.some.inj (scanned.symm.trans same)
      exact .inl ⟨rfl, by rw [soFar]; rfl, waits⟩
    · cases Option.some.inj (scanned.symm.trans same)
      exact .inr ⟨t, rfl, rfl, by rw [soFar]; exact returns⟩
  | _ => simp [Klient.scan, phase] at scanned

theorem typedStep (next : act s a = some (made,t)) (c : Client) :
    inputsOf c made ++ typedSoFar (t.klient c) =
      typedSoFar (s.klient c) ++ typedBy c [(a,made)] := by
  cases a with
  | serverSends =>
    obtain ⟨_, _, _, _, rfl, rfl⟩ := serverSent next
    simp [inputsOf, typedBy]
  | serverReceives =>
    obtain ⟨_, _, _, _, _, _, _, _, rfl, rfl⟩ := serverReceived next
    simp [inputsOf, typedBy]
  | receives d =>
    obtain ⟨_, _, _, _, received, rfl, rfl⟩ := klientReceived next
    obtain ⟨before, after⟩ := receivedFresh received
    by_cases same : c = d
    · subst same
      simp [inputsOf, typedBy, before, after]
    · simp [inputsOf, typedBy, same]
  | types d q =>
    obtain ⟨turn, klient, scanned, rfl, rfl⟩ := klientScanned next
    by_cases same : c = d
    · subst same
      rcases scannedTyped scanned with ⟨rfl, soFar, _⟩ | ⟨turn, rfl, soFar, _⟩ <;>
        simp [inputsOf, typedBy, soFar, move]
    · have apart : d ≠ c := fun other => same other.symm
      cases turn <;> simp [inputsOf, typedBy, same, apart, move]
  | sends d =>
    obtain ⟨_, _, sent, rfl, rfl⟩ := klientSent next
    obtain ⟨before, after⟩ := sentFresh sent
    by_cases same : c = d
    · subst same
      simp [inputsOf, typedBy, before, after]
    · simp [inputsOf, typedBy, same]

theorem waitsStep (waits : ∀ c, Waits (s.klient c)) (next : act s a = some (made,t)) (c : Client) :
    Waits (t.klient c) := by
  cases a with
  | serverSends =>
    obtain ⟨_, _, _, _, rfl, rfl⟩ := serverSent next
    exact waits c
  | serverReceives =>
    obtain ⟨_, _, _, _, _, _, _, _, rfl, rfl⟩ := serverReceived next
    exact waits c
  | receives d =>
    obtain ⟨_, _, _, _, received, rfl, rfl⟩ := klientReceived next
    by_cases same : c = d
    · subst same
      exact waitsFresh (by simpa using (receivedFresh received).2)
    · simpa [same] using waits c
  | types d q =>
    obtain ⟨turn, klient, scanned, rfl, rfl⟩ := klientScanned next
    by_cases same : c = d
    · subst same
      rcases scannedTyped scanned with ⟨_, _, still⟩ | ⟨_, _, soFar, _⟩
      · simpa using still
      · exact waitsFresh (by simpa using soFar)
    · simpa [same] using waits c
  | sends d =>
    obtain ⟨_, _, sent, rfl, rfl⟩ := klientSent next
    by_cases same : c = d
    · subst same
      exact waitsFresh (by simpa using (sentFresh sent).2)
    · simpa [same] using waits c

theorem madeLast (waits : ∀ c, Waits (s.klient c)) (next : act s a = some (made,t)) :
    ∀ m ∈ made, m.turn.rest = [] := by
  cases a with
  | types d q =>
    obtain ⟨turn, klient, scanned, rfl, rfl⟩ := klientScanned next
    rcases scannedTyped scanned with ⟨rfl, _⟩ | ⟨t, rfl, _, returns⟩
    · simp
    · have last := (returnsLast (waits d) returns).1
      simpa [move] using last
  | serverSends =>
    obtain ⟨_, _, _, _, rfl, rfl⟩ := serverSent next
    simp
  | serverReceives =>
    obtain ⟨_, _, _, _, _, _, _, _, rfl, rfl⟩ := serverReceived next
    simp
  | receives d =>
    obtain ⟨_, _, _, _, _, rfl, rfl⟩ := klientReceived next
    simp
  | sends d =>
    obtain ⟨_, _, _, rfl, rfl⟩ := klientSent next
    simp

structure Account (labels : List (Action × List Move)) (s : State) : Prop where
  waits : ∀ c, Waits (s.klient c)
  typed : ∀ c, typedBy c labels = inputsOf c (moves labels) ++ typedSoFar (s.klient c)
  last : ∀ m ∈ moves labels, m.turn.rest = []

theorem accountRun (run : Run (distributed randNum) labels s) : Account labels s := by
  induction run with
  | @start s first =>
    have fresh (c : Client) : typedSoFar (s.klient c) = [] := by
      simp only [typedSoFar, (first.klients c).1]
    exact ⟨fun c => waitsFresh (fresh c), fun c => by rw [fresh c]; rfl, by simp [moves]⟩
  | @step labels s l t before next ih =>
    obtain ⟨a, made⟩ := l
    have happened : act s a = some (made,t) := next
    have longer : moves (labels ++ [(a,made)]) = moves labels ++ made := by simp [moves]
    refine ⟨waitsStep ih.waits happened, fun c => ?_, fun m member => ?_⟩
    · rw [typedByAppend, ih.typed c, List.append_assoc, ← typedStep happened c, longer,
        inputsAppend, List.append_assoc]
    · rw [longer] at member
      rcases List.mem_append.mp member with earlier | now
      · exact ih.last m earlier
      · exact madeLast ih.waits happened m now

end Typing

section Replays
variable {randNum n : Nat} {labels : List (Action × List Move)} {s : State} {done : List Move}
  {game last : Board × Client} {scripts pending : Client → List Coordinates}

theorem playOutStops (waits : makeMove game.1 (choosePlayersPawns randNum game.2)
    (scripts game.2) = .ok none) : playOut randNum n game.1 game.2 scripts = [] := by
  cases n with
  | zero => rfl
  | succ n => simp only [playOut, waits]

/- Induction on the moves: each call reads its own inputs and leaves the later ones. -/
theorem playOutMoves (steps : Steps (centralised randNum) game done last)
    (all : ∀ m ∈ done, m.turn.rest = [])
    (reads : ∀ c, scripts c = inputsOf c done ++ pending c)
    (waits : makeMove last.1 (choosePlayersPawns randNum last.2) (pending last.2) = .ok none)
    (enough : done.length ≤ n) : playOut randNum n game.1 game.2 scripts = done := by
  induction steps generalizing scripts n with
  | nil game => exact playOutStops (by rw [reads]; exact waits)
  | @cons game m next rest last first later ih =>
    obtain ⟨client, before, returns, rfl⟩ := first
    obtain ⟨whole, others⟩ := List.forall_mem_cons.mp all
    cases n with
    | zero => simp at enough
    | succ n =>
      have mine : scripts game.2 = m.inputs ++ (inputsOf game.2 rest ++ pending game.2) := by
        rw [reads]
        simp [inputsOf, client]
      have more := makeMoveMore returns (inputsOf game.2 rest ++ pending game.2)
      rw [before, client, whole, List.nil_append, ← mine] at more
      have read : (scripts game.2).take ((scripts game.2).length -
          (inputsOf game.2 rest ++ pending game.2).length) = m.inputs := by
        rw [mine, List.length_append, Nat.add_sub_cancel, List.take_left]
      have left' : ∀ c, Function.update scripts game.2 (inputsOf game.2 rest ++ pending game.2) c =
          inputsOf c rest ++ pending c := by
        intro c
        by_cases same : c = game.2
        · subst same
          rw [Function.update_self]
        · rw [Function.update_of_ne same, reads]
          have apart : m.client ≠ c := fun other => same (other.symm.trans client)
          simp [inputsOf, apart]
      have played := ih others left' waits (by simpa using enough)
      have turn : {m.turn with rest := []} = m.turn := by rw [← whole]
      simp only [playOut, more, read, turn]
      rw [played, ← client, ← before]

theorem inputsLength (steps : Steps (centralised randNum) game done last) :
    done.length ≤ (inputsOf .one done).length + (inputsOf .two done).length := by
  induction steps with
  | nil => simp
  | @cons game m next rest last first later ih =>
    obtain ⟨_, _, returns, _⟩ := first
    have some' : 0 < m.inputs.length := by
      rw [List.length_pos_iff]
      intro none
      rw [none] at returns
      cases returns
    have split (c : Client) : (inputsOf c (m :: rest)).length =
        (if m.client = c then m.inputs.length else 0) + (inputsOf c rest).length := by
      rw [inputsOf, List.flatMap_cons, List.length_append, apply_ite List.length]
      rfl
    rw [split, split, List.length_cons]
    cases m.client <;> simp <;> omega

theorem centralisedSteps (run : Run (centralised randNum) done game) :
    Steps (centralised randNum) (initializeBoard,.one) done game := by
  obtain ⟨first, begins, steps⟩ := Transition.runFrom run
  exact (show first = _ from begins) ▸ steps

theorem replayMoves (run : Run (centralised randNum) done game)
    (all : ∀ m ∈ done, m.turn.rest = [])
    (reads : ∀ c, scripts c = inputsOf c done ++ pending c)
    (waits : makeMove game.1 (choosePlayersPawns randNum game.2) (pending game.2) = .ok none) :
    replay randNum scripts = done := by
  have steps := centralisedSteps run
  refine playOutMoves steps all reads waits ?_
  have fuel := inputsLength steps
  simp only [reads, List.length_append]
  omega

theorem runReplay (run : Run (distributed randNum) labels s) :
    replay randNum (fun c => typedBy c labels) = moves labels := by
  obtain ⟨waits, typed, last⟩ := accountRun run
  obtain ⟨place, run', holds, mover⟩ := reachableHolds run
  refine replayMoves run' last typed ?_
  cases phase : (s.klient place.toMove).phase with
  | moving soFar =>
    have held := (SharedBoard.movingTurn holds phase).1
    have mine : (s.klient place.toMove).playerChar = choosePlayersPawns randNum place.toMove :=
      (Discipline.showsColour (holds.shown _)).1 (by simp [phase])
    have waiting := waits place.toMove
    rwa [Waits, held, mine] at waiting
  | _ => rw [typedOfPhase (by simp [phase])]; rfl

end Replays

section Realised
variable {randNum : Nat} {labels more : List (Action × List Move)} {s t : State} {c : Client}
  {typed qs : List Coordinates} {q : Coordinates} {turn : MakeMove.Turn} {done : List Move}
  {game : Board × Client}

def TypedOnly (c : Client) (qs : List Coordinates) (labels : List (Action × List Move)) : Prop :=
  ∀ d, typedBy d labels = if d = c then qs else []

theorem typedOnlyCons {first rest : List Coordinates} (one : TypedOnly c first labels)
    (others : TypedOnly c rest more) : TypedOnly c (first ++ rest) (labels ++ more) := by
  intro d
  rw [typedByAppend, one d, others d]
  split <;> rfl

theorem typedOnlyOne (c : Client) (q : Coordinates) (made : List Move) :
    TypedOnly c [q] [(.types c q,made)] := by
  intro d
  by_cases same : d = c
  · simp [typedBy, same]
  · have apart : c ≠ d := fun other => same other.symm
    simp [typedBy, same, apart]

theorem typesWaiting (randNum : Nat) (moving : (s.klient c).phase = .moving typed)
    (waits : makeMove (s.klient c).board (s.klient c).playerChar (typed ++ qs) = .ok none) :
    ∃ labels, Steps (distributed randNum) s labels {s with
        klient := Function.update s.klient c {s.klient c with phase := .moving (typed ++ qs)}} ∧
      labels.map Prod.fst = qs.map (.types c) ∧ moves labels = [] := by
  induction qs generalizing s typed with
  | nil =>
    refine ⟨[], ?_, rfl, rfl⟩
    rw [List.append_nil, ← moving, Function.update_eq_self]
    exact .nil s
  | cons q qs ih =>
    have split : typed ++ q :: qs = typed ++ [q] ++ qs := by simp
    rw [split] at waits ⊢
    let asked : Klient.State := {s.klient c with phase := .moving (typed ++ [q])}
    let u : State := {s with klient := Function.update s.klient c asked}
    have here : u.klient c = asked := Function.update_self ..
    have next : act s (.types c q) = some ([],u) := by
      simp only [act, Klient.scan, moving, waitsPrefix waits, Option.bind_eq_bind, Option.bind_some]
      rfl
    have still : makeMove (u.klient c).board (u.klient c).playerChar (typed ++ [q] ++ qs) = .ok none := by
      rw [here]
      exact waits
    obtain ⟨labels, steps, types, none⟩ := ih (s := u) (by rw [here]) still
    rw [here] at steps
    simp only [u, Function.update_idem] at steps
    exact ⟨(.types c q,[]) :: labels, .cons next steps, by rw [List.map_cons, types]; rfl, none⟩

theorem typesReturning (randNum : Nat) (moving : (s.klient c).phase = .moving typed)
    (waits : makeMove (s.klient c).board (s.klient c).playerChar (typed ++ qs) = .ok none)
    (returns : makeMove (s.klient c).board (s.klient c).playerChar (typed ++ qs ++ [q]) =
      .ok (some turn)) :
    ∃ labels, Steps (distributed randNum) s labels {s with
        klient := Function.update s.klient c {s.klient c with board := turn.board, phase := .sending}} ∧
      labels.map Prod.fst = (qs ++ [q]).map (.types c) ∧
      moves labels = [⟨c,(s.klient c).board,typed ++ qs ++ [q],turn⟩] := by
  obtain ⟨labels, steps, types, none⟩ := typesWaiting randNum moving waits
  let asked : Klient.State := {s.klient c with phase := .moving (typed ++ qs)}
  let u : State := {s with klient := Function.update s.klient c asked}
  have here : u.klient c = asked := Function.update_self ..
  have scanned : Klient.scan (u.klient c) q = some (some turn,
      {s.klient c with board := turn.board, phase := .sending}) := by
    rw [here]
    simp only [Klient.scan, asked, returns]
  have next : act u (.types c q) = some ([⟨c,(s.klient c).board,typed ++ qs ++ [q],turn⟩],
      {s with
        klient := Function.update s.klient c {s.klient c with board := turn.board, phase := .sending}}) := by
    simp only [act, scanned, Option.bind_eq_bind, Option.bind_some, Option.toList, List.map_cons,
      List.map_nil, move]
    simp only [here, asked, typedSoFar]
    simp only [u, Function.update_idem]
  have happened : (distributed randNum).step u (.types c q,_) _ := next
  refine ⟨_, Transition.stepsAppend steps (Transition.stepsOne happened), ?_, ?_⟩
  · rw [List.map_append, types, List.map_append]
    rfl
  · rw [movesAppend, none]
    rfl

theorem typedOnly (types : labels.map Prod.fst = qs.map (.types c)) : TypedOnly c qs labels := by
  induction qs generalizing labels with
  | nil =>
    obtain rfl := List.map_eq_nil_iff.mp types
    exact fun d => by simp [typedBy]
  | cons q qs ih =>
    obtain ⟨⟨a, made⟩, rest, rfl, rfl, more⟩ := List.map_eq_cons_iff.mp types
    exact typedOnlyCons (typedOnlyOne c q made) (ih more)

theorem silentTyped (all : ∀ l ∈ more, silent l.1) (c : Client) : typedBy c more = [] := by
  refine List.flatMap_eq_nil_iff.mpr (fun l member => ?_)
  have quiet := all l member
  cases act' : l.1 with
  | types => simp [silent, act'] at quiet
  | _ => rfl

theorem askedNext (run : Run (distributed randNum) labels s) :
    ∃ more t typed, Steps (distributed randNum) s more t ∧ moves more = [] ∧
      (∀ d, typedBy d more = []) ∧
      (t.klient (toMove (moves labels))).phase = .moving typed ∧
      typed = typedSoFar (s.klient (toMove (moves labels))) ∧
      (t.klient (toMove (moves labels))).board = latest (moves labels) ∧
      (t.klient (toMove (moves labels))).playerChar =
        choosePlayersPawns randNum (toMove (moves labels)) := by
  obtain ⟨more, t, steps, all, none⟩ := Rounds.settles run
  have longer := Transition.runSteps run steps
  have quiet := Rounds.silentMoves run steps all
  have same : moves (labels ++ more) = moves labels := by rw [movesAppend, quiet, List.append_nil]
  have rest := (Rounds.nothingOutstanding longer).2.mp none
  rw [same] at rest
  obtain ⟨typed, moving⟩ := rest.asked
  have soFar : typed = typedSoFar (t.klient (toMove (moves labels))) := by
    simp only [typedSoFar, moving]
  have before := (accountRun run).typed (toMove (moves labels))
  have after := (accountRun longer).typed (toMove (moves labels))
  rw [typedByAppend, silentTyped all, List.append_nil, same, before, ← soFar] at after
  exact ⟨more, t, typed, steps, quiet, silentTyped all, moving, (List.append_cancel_left after).symm,
    rest.board, rest.colour _⟩

theorem connectedRun (randNum : Nat) :
    Run (distributed randNum) [] {connected with server := Server.accepted randNum} :=
  .start ⟨rfl, fun _ => ⟨rfl, rfl⟩, fun _ => ⟨rfl, rfl⟩⟩

theorem realised (run : Run (centralised randNum) done game) (all : ∀ m ∈ done, m.turn.rest = []) :
    ∃ labels s, Run (distributed randNum) labels s ∧ moves labels = done ∧
      ∀ c, typedBy c labels = inputsOf c done := by
  induction run with
  | start => exact ⟨[], _, connectedRun randNum, rfl, fun _ => rfl⟩
  | @step done game m next before happened ih =>
    obtain ⟨labels, s, run, rfl, read⟩ := ih (fun n member => all n (List.mem_append_left _ member))
    obtain rfl := centralisedState before
    obtain ⟨client, board, returns, rfl⟩ := happened
    dsimp only at client board
    obtain ⟨more, t, typed, steps, quiet, silent, moving, soFar, held, mine⟩ := askedNext run
    have fresh : typed = [] := by
      have account := (accountRun run).typed (toMove (moves labels))
      rw [read] at account
      rw [soFar]
      exact List.append_right_eq_self.mp account.symm
    subst fresh
    obtain ⟨qs, split, waits⟩ := returnsInputs returns (all m (by simp))
    rw [client, board, ← held, ← mine] at waits returns
    rw [split] at returns
    obtain ⟨later, typing, types, made⟩ := typesReturning randNum moving waits returns
    have only := typedOnly types
    refine ⟨labels ++ more ++ later, _,
      Transition.runSteps (Transition.runSteps run steps) typing, ?_, fun c => ?_⟩
    · rw [movesAppend, movesAppend, quiet, List.append_nil, made, held, List.nil_append, ← split,
        ← board, ← client]
    · rw [typedByAppend, typedByAppend, silent, List.append_nil, read, inputsAppend, only, ← split,
        ← client]
      simp [inputsOf, eq_comm]

end Realised

section Traces
variable {randNum n : Nat} {board : Board} {player : Byte} {c : Client} {qs : List Coordinates}
  {turn : MakeMove.Turn} {scripts : Client → List Coordinates}

theorem makeMoveRead (returns : makeMove board player qs = .ok (some turn)) :
    makeMove board player (qs.take (qs.length - turn.rest.length)) =
      .ok (some {turn with rest := []}) ∧
    qs = qs.take (qs.length - turn.rest.length) ++ turn.rest := by
  obtain ⟨m, returned⟩ := makeMoveReturned returns
  obtain ⟨before, split, rejections⟩ := returned.split
  have front : qs.take (qs.length - turn.rest.length) = before ++ [turn.typed] := by
    rw [List.append_cons] at split
    rw [split, List.length_append, Nat.add_sub_cancel, List.take_left]
  rw [front]
  obtain ⟨u, early, _, _, none⟩ := makeMoveLegal rejections returned.legal []
  rw [← returned.typed] at early
  have whole := makeMoveMore early turn.rest
  rw [← List.append_cons, ← split, returns, none, List.nil_append] at whole
  have same : turn = {u with rest := turn.rest} := Option.some.inj (Except.ok.inj whole)
  refine ⟨?_, by rw [← List.append_cons]; exact split⟩
  rw [early, same, ← none]

theorem playOutSteps (randNum n : Nat) (board : Board) (c : Client)
    (scripts : Client → List Coordinates) :
    (∃ last, Steps (centralised randNum) (board,c) (playOut randNum n board c scripts) last) ∧
    (∀ m ∈ playOut randNum n board c scripts, m.turn.rest = []) ∧
    ∀ d, inputsOf d (playOut randNum n board c scripts) <+: scripts d := by
  induction n generalizing board c scripts with
  | zero => exact ⟨⟨_, .nil _⟩, by simp [playOut], fun d => List.nil_prefix⟩
  | succ n ih =>
    obtain ⟨out, returns⟩ := makeMoveNoFault board (choosePlayersPawns randNum c) (scripts c)
    cases out with
    | none =>
      have stops : playOut randNum (n + 1) board c scripts = [] := by simp only [playOut, returns]
      rw [stops]
      exact ⟨⟨_, .nil _⟩, by simp, fun d => List.nil_prefix⟩
    | some turn =>
      obtain ⟨read, split⟩ := makeMoveRead returns
      obtain ⟨⟨last, steps⟩, all, prefixes⟩ :=
        ih turn.board c.other (Function.update scripts c turn.rest)
      simp only [playOut, returns]
      refine ⟨⟨last, .cons ⟨rfl, rfl, read, rfl⟩ steps⟩, List.forall_mem_cons.mpr ⟨rfl, all⟩, ?_⟩
      intro d
      have later := prefixes d
      by_cases same : d = c
      · subst same
        rw [Function.update_self] at later
        have whole := (List.prefix_append_right_inj
          ((scripts d).take ((scripts d).length - turn.rest.length))).mpr later
        rw [← split] at whole
        simpa [inputsOf] using whole
      · rw [Function.update_of_ne same] at later
        have apart : c ≠ d := fun other => same other.symm
        simpa [inputsOf, apart] using later

theorem replayRun (randNum : Nat) (scripts : Client → List Coordinates) :
    (∃ game, Run (centralised randNum) (replay randNum scripts) game) ∧
    (∀ m ∈ replay randNum scripts, m.turn.rest = []) ∧
    ∀ d, inputsOf d (replay randNum scripts) <+: scripts d := by
  obtain ⟨⟨last, steps⟩, all, prefixes⟩ := playOutSteps randNum
    ((scripts .one).length + (scripts .two).length) initializeBoard .one scripts
  exact ⟨⟨last, Transition.runSteps (.start rfl) steps⟩, all, prefixes⟩

theorem networkReplay (randNum : Nat) :
    (∀ labels s, Run (distributed randNum) labels s →
      moves labels = replay randNum (fun c => typedBy c labels)) ∧
    ∀ scripts : Client → List Coordinates, ∃ labels s, Run (distributed randNum) labels s ∧
      moves labels = replay randNum scripts ∧ ∀ c, typedBy c labels <+: scripts c := by
  refine ⟨fun labels s run => (runReplay run).symm, fun scripts => ?_⟩
  obtain ⟨⟨game, run⟩, all, prefixes⟩ := replayRun randNum scripts
  obtain ⟨labels, s, run', made, read⟩ := realised run all
  exact ⟨labels, s, run', made, fun c => by rw [read c]; exact prefixes c⟩

theorem sameGames (randNum : Nat) (done : List Move) :
    (∃ labels s, Run (distributed randNum) labels s ∧ moves labels = done) ↔
      (∃ game, Run (centralised randNum) done game) ∧ ∀ m ∈ done, m.turn.rest = [] := by
  constructor
  · rintro ⟨labels, s, run, rfl⟩
    obtain ⟨place, run', _, _⟩ := reachableHolds run
    exact ⟨⟨_, run'⟩, (accountRun run).last⟩
  · rintro ⟨⟨game, run⟩, all⟩
    obtain ⟨labels, s, run', made, _⟩ := realised run all
    exact ⟨labels, s, run', made⟩

end Traces
end Warcaby.Replay
