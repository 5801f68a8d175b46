import Warcaby.Discipline
import Warcaby.SharedBoard

/-! How much happens between two moves. Typing apart, every action brings the next
player's turn one step nearer, whatever the order, so a game of so many moves has
taken a known number of actions, and the programs never turn in circles. -/
namespace Warcaby.Rounds
open ByteStream Tlv Wire MakeMove Session Token
open Discipline (showsThinking showsMoved showsReturned serverSendsEnabled receivesEnabled
  sendsEnabled serverReceivesEnabled)
open Server (Client choosePlayersPawns)
open Transition (Run Steps)

def silent : Action → Bool
  | .types _ _ => false
  | _ => true

/- Actions before the next player is asked, apart from reading colours late: by what the
server does, and by how far the client it waits for has come. -/
def turnHops (phase : Klient.Phase) (up : List Byte) : Nat :=
  match phase with
  | .moving _ => 0
  | .sending => 4
  | _ => if up = [] then 1 else 3

def hops (s : State) : Nat :=
  match s.server.phase with
  | .sendingColour .one => 4
  | .sendingColour .two => 3
  | .sending _ => 2
  | .receiving c => turnHops (s.klient c).phase (s.toServer c)
  | _ => 0

def unread (k : Klient.State) : Nat := if k.phase = .colour then 1 else 0

def outstanding (s : State) : Nat := hops s + (unread (s.klient .one) + unread (s.klient .two))

section Actions
variable {randNum : Nat} {place : Place} {board : Board} {s t : State} {made : List Move} {c : Client}
  {colour : Byte} {k : Klient.State} {down up : List Byte}

theorem hopsListening (waits : s.server.phase = .receiving c)
    (listens : (s.klient c).phase = .colour ∨ (s.klient c).phase = .receiving) :
    hops s = if s.toServer c = [] then 1 else 3 := by
  rcases listens with phase | phase <;> simp only [hops, turnHops, waits, phase]

theorem hopsThinking {typed : List Coordinates} (waits : s.server.phase = .receiving c)
    (thinks : (s.klient c).phase = .moving typed) : hops s = 0 := by
  simp only [hops, turnHops, waits, thinks]

theorem hopsMoved (waits : s.server.phase = .receiving c) (moved : (s.klient c).phase = .sending) :
    hops s = 4 := by
  simp only [hops, turnHops, waits, moved]

theorem showsSilent {stage : Stage} (shows' : Shows colour board k (some stage) down up)
    (idle : stage = .waiting ∨ stage = .offered) :
    (k.phase = .colour ∨ k.phase = .receiving) ∧ up = [] := by
  cases shows' with
  | waiting inbox => cases inbox <;> simp [*]
  | offered inbox => cases inbox <;> simp [*]
  | thinking | moved | returned => simp at idle

theorem sendsLeft (holds : Holds randNum place board s)
    (next : act s .serverSends = some (made,t)) : made = [] ∧ outstanding t + 1 = outstanding s := by
  obtain ⟨c, bytes, server, sent, rfl, rfl⟩ := serverSent next
  refine ⟨rfl, ?_⟩
  have phase := holds.phase
  cases place with
  | colours d =>
    cases d <;>
    · simp only [Server.send, phase, Place.phase] at sent
      cases Option.some.inj sent
      simp only [outstanding, hops, phase, Place.phase]
      omega
  | turn d stage =>
    cases stage <;> simp only [Server.send, phase, Place.phase] at sent <;> try contradiction
    cases Option.some.inj sent
    have shown := holds.shown c
    rw [stageSelf] at shown
    obtain ⟨listens, empty⟩ := showsSilent shown (.inl rfl)
    have after := hopsListening (s := {s with
      server := {s.server with phase := .receiving c},
      toKlient := Function.update s.toKlient c (s.toKlient c ++ boardFrame s.server.board)}) rfl listens
    simp only [outstanding, after, empty, if_true]
    simp only [hops, phase, Place.phase]
    omega

theorem takesLeft (clean : ∀ i j, board i j ≠ nul) (holds : Holds randNum place board s)
    (next : act s .serverReceives = some (made,t)) : made = [] ∧ outstanding t + 1 = outstanding s := by
  obtain ⟨c, chunk, rest, events, server, phase, taken, received, rfl, rfl⟩ := serverReceived next
  refine ⟨rfl, ?_⟩
  obtain ⟨occupied, _⟩ := recvTaken taken
  obtain ⟨active, frame, waits⟩ := boardTaken (holds.shown c) occupied
  have listens : (s.klient c).phase = .colour ∨ (s.klient c).phase = .receiving :=
    (showsSilent waits (.inl rfl)).1
  have before : hops s = 3 := by rw [hopsListening phase listens, if_neg occupied]
  rw [frame] at taken
  obtain ⟨bytes, rfl⟩ := recvFrame taken
  obtain ⟨server', received', sending, _⟩ :=
    Server.receiveDelivered phase (frameDelivers clean bytes)
  cases Option.some.inj (received.symm.trans received')
  simp only [outstanding, before]
  simp only [hops, sending]
  omega

theorem receiveCases {stage : Option Stage} {next : Klient.State} {chunk : Chunk}
    {rest : List Byte} (clean : ∀ i j, board i j ≠ nul) (shows' : Shows colour board k stage down up)
    (taken : recv (Klient.wanted k) (Klient.wantedBounded k) down = some (chunk,rest))
    (received : Klient.receive k chunk = some next) :
    (k.phase = .colour ∧ next.phase = .receiving) ∨
    (k.phase = .receiving ∧ stage = some .offered ∧ up = [] ∧ next.phase = .moving []) := by
  cases shows' with
  | unassigned => cases taken
  | waiting inbox =>
    cases inbox with
    | queued phase => exact .inl ⟨phase, Klient.colourRead phase received⟩
    | taken => cases taken
  | offered inbox =>
    cases inbox with
    | queued phase => exact .inl ⟨phase, Klient.colourRead phase received⟩
    | taken phase mine =>
      refine .inr ⟨phase, rfl, rfl, ?_⟩
      have wanted : Klient.wanted k = bufferSize := if_neg (by rw [phase]; decide)
      simp only [wanted] at taken
      obtain ⟨bytes, rfl⟩ := recvFrame taken
      obtain ⟨next', received', moving, _⟩ :=
        Klient.receiveDelivered phase (frameDelivers clean bytes)
      cases Option.some.inj (received.symm.trans received')
      exact moving
  | thinking => cases taken
  | moved => cases taken
  | returned => cases taken

theorem hopsColour {down : Client → List Byte} (before : (s.klient c).phase = .colour)
    (after : k.phase = .receiving) :
    hops {s with klient := Function.update s.klient c k, toKlient := down} = hops s := by
  unfold hops
  cases s.server.phase with
  | receiving d =>
    by_cases same : d = c
    · subst same
      simp [turnHops, before, after]
    · simp [same]
  | sendingColour d => cases d <;> rfl
  | _ => rfl

theorem unreadUpdate (s : State) (c : Client) (k : Klient.State) :
    unread (Function.update s.klient c k .one) + unread (Function.update s.klient c k .two) +
      unread (s.klient c) = unread (s.klient .one) + unread (s.klient .two) + unread k := by
  cases c <;> simp [Function.update] <;> omega

theorem receivesLeft (clean : ∀ i j, board i j ≠ nul) (holds : Holds randNum place board s)
    (next : act s (.receives c) = some (made,t)) : made = [] ∧ outstanding t + 1 = outstanding s := by
  obtain ⟨chunk, rest, klient, taken, received, rfl, rfl⟩ := klientReceived next
  refine ⟨rfl, ?_⟩
  have others := unreadUpdate s c klient
  rcases receiveCases clean (holds.shown c) taken received with
    ⟨colour, receiving⟩ | ⟨receiving, offered, empty, moving⟩
  · have first : unread (s.klient c) = 1 := if_pos colour
    have last : unread klient = 0 := if_neg (by rw [receiving]; decide)
    simp only [outstanding, hopsColour colour receiving]
    omega
  · obtain rfl := activeStage offered (by decide)
    have first : unread (s.klient c) = 0 := if_neg (by rw [receiving]; decide)
    have last : unread klient = 0 := if_neg (by rw [moving]; decide)
    have waits : s.server.phase = .receiving c := holds.phase
    have before : hops s = 1 := by rw [hopsListening waits (.inr receiving), if_pos empty]
    have thinks : (Function.update s.klient c klient c).phase = .moving [] := by simp [moving]
    have after := hopsThinking (s := {s with
      klient := Function.update s.klient c klient, toKlient := Function.update s.toKlient c rest})
      waits thinks
    simp only [outstanding, before, after]
    omega

theorem typesLeft {q : Coordinates} (holds : Holds randNum place board s)
    (next : act s (.types c q) = some (made,t)) : outstanding t = outstanding s + 4 * made.length := by
  obtain ⟨turn, klient, scanned, rfl, rfl⟩ := klientScanned next
  obtain ⟨thinking, outcome⟩ := clientScans (holds.shown c) scanned
  obtain rfl := activeStage thinking (by decide)
  have waits : s.server.phase = .receiving c := holds.phase
  obtain ⟨typed, moving⟩ := showsThinking (stageSelf c .thinking ▸ holds.shown c)
  have others := unreadUpdate s c klient
  have first : unread (s.klient c) = 0 := if_neg (by simp [moving])
  have before := hopsThinking waits moving
  have listed : ((turn.toList.map (move c (s.klient c) q)).length) = turn.toList.length := by simp
  rw [listed]
  rcases outcome with ⟨rfl, thinks⟩ | ⟨turn', rfl, _, _, moved⟩
  · obtain ⟨typed', moving'⟩ := showsThinking thinks
    have last : unread klient = 0 := if_neg (by simp [moving'])
    have still : (Function.update s.klient c klient c).phase = .moving typed' := by simpa using moving'
    have after := hopsThinking (s := {s with klient := Function.update s.klient c klient}) waits still
    simp only [outstanding, before, after, Option.toList, List.length_nil]
    omega
  · have sending := showsMoved moved
    have last : unread klient = 0 := if_neg (by rw [sending]; decide)
    have after := hopsMoved (s := {s with klient := Function.update s.klient c klient})
      (c := c) waits (by simpa using sending)
    simp only [outstanding, before, after, Option.toList, List.length_singleton]
    omega

theorem returnedListens (shows' : Shows colour board k (some .returned) down up) :
    k.phase = .receiving := by
  cases shows' with
  | returned phase => exact phase

theorem sentLeft (holds : Holds randNum place board s) (next : act s (.sends c) = some (made,t)) :
    made = [] ∧ outstanding t + 1 = outstanding s := by
  obtain ⟨bytes, klient, sent, rfl, rfl⟩ := klientSent next
  refine ⟨rfl, ?_⟩
  obtain ⟨moved, returned⟩ := clientSends (holds.shown c) sent
  obtain rfl := activeStage moved (by decide)
  have waits : s.server.phase = .receiving c := holds.phase
  have sending := showsMoved (stageSelf c .moved ▸ holds.shown c)
  have others := unreadUpdate s c klient
  have listens := returnedListens returned
  have first : unread (s.klient c) = 0 := if_neg (by rw [sending]; decide)
  have last : unread klient = 0 := if_neg (by rw [listens]; decide)
  have before := hopsMoved waits sending
  have after := hopsListening (s := {s with
    klient := Function.update s.klient c klient,
    toServer := Function.update s.toServer c (s.toServer c ++ bytes)}) (c := c) waits
    (.inr (by simpa using listens))
  have occupied : s.toServer c ++ bytes ≠ [] := showsReturned returned
  simp only [outstanding, before, after, Function.update_self, if_neg occupied]
  omega

theorem actionLeft {a : Action} (clean : ∀ i j, board i j ≠ nul)
    (holds : Holds randNum place board s) (next : act s a = some (made,t)) :
    outstanding t + (if silent a then 1 else 0) = outstanding s + 4 * made.length ∧ (silent a → made = []) := by
  have count (law : made = [] ∧ outstanding t + 1 = outstanding s) :
      outstanding t + 1 = outstanding s + 4 * made.length ∧ (true = true → made = []) := by
    obtain ⟨rfl, law⟩ := law
    exact ⟨law, fun _ => rfl⟩
  cases a with
  | serverSends => exact count (sendsLeft holds next)
  | serverReceives => exact count (takesLeft clean holds next)
  | receives c => exact count (receivesLeft clean holds next)
  | types c q => exact ⟨typesLeft holds next, nofun⟩
  | sends c => exact count (sentLeft holds next)

theorem behindOccupied {stage : Stage} (shows' : Shows colour board k (some stage) down up)
    (behind : k.phase = .colour) : down ≠ [] := by
  cases shows' with
  | waiting inbox =>
    cases inbox with
    | queued => exact List.cons_ne_nil _ _
    | taken phase => simp [phase] at behind
  | offered inbox =>
    cases inbox with
    | queued => exact List.cons_ne_nil _ _
    | taken phase => simp [phase] at behind
  | thinking _ phase | moved phase | returned phase => simp [phase] at behind

theorem behindEnabled {stage : Stage} (shown : place.stage c = some stage)
    (holds : Holds randNum place board s) (behind : (s.klient c).phase = .colour) :
    ∃ step, act s (.receives c) = some step := by
  have occupied := behindOccupied (shown ▸ holds.shown c) behind
  obtain ⟨chunk, rest, taken⟩ := recvReady (Klient.wantedBounded (s.klient c)) occupied
  obtain ⟨next, received⟩ := Klient.receiveReady chunk (.inl behind)
  simp only [act, taken, received, Option.bind_eq_bind, Option.bind_some]
  exact ⟨_, rfl⟩

theorem unreadSome (k : Klient.State) : unread k ≠ 0 ↔ k.phase = .colour := by
  unfold unread
  split <;> simp [*]

theorem silentEnabled (holds : Holds randNum place board s) (some' : outstanding s ≠ 0) :
    ∃ a step, silent a ∧ act s a = some step := by
  have phase := holds.phase
  cases place with
  | colours d =>
    obtain ⟨step, next⟩ : ∃ step, act s .serverSends = some step := by
      cases d <;> exact serverSendsEnabled (by simp [Server.send, phase, Place.phase])
    exact ⟨_, step, rfl, next⟩
  | turn d stage =>
    cases stage with
    | waiting =>
      obtain ⟨step, next⟩ := serverSendsEnabled (s := s) (by simp [Server.send, phase, Place.phase])
      exact ⟨_, step, rfl, next⟩
    | offered =>
      obtain ⟨step, next⟩ := receivesEnabled holds
      exact ⟨_, step, rfl, next⟩
    | moved =>
      obtain ⟨step, next⟩ := sendsEnabled holds
      exact ⟨_, step, rfl, next⟩
    | returned =>
      obtain ⟨step, next⟩ := serverReceivesEnabled holds
      exact ⟨_, step, rfl, next⟩
    | thinking =>
      obtain ⟨typed, moving⟩ := showsThinking (stageSelf d .thinking ▸ holds.shown d)
      have none := hopsThinking phase moving
      have asked : unread (s.klient d) = 0 := if_neg (by simp [moving])
      have behind : (s.klient d.other).phase = .colour := by
        rw [← unreadSome]
        intro zero
        cases d <;> simp only [Client.other] at zero <;> simp only [outstanding] at some' <;> omega
      have apart : d.other ≠ d := by cases d <;> decide
      obtain ⟨step, next⟩ := behindEnabled (stageOther apart .thinking) holds behind
      exact ⟨_, step, rfl, next⟩

theorem restingPlace (holds : Holds randNum place board s) (none : outstanding s = 0) :
    ∃ c, place = .turn c .thinking := by
  have phase := holds.phase
  have still : hops s = 0 := by unfold outstanding at none; omega
  cases place with
  | colours d => cases d <;> simp [hops, phase, Place.phase] at still
  | turn d stage =>
    have shown := holds.shown d
    rw [stageSelf] at shown
    cases stage with
    | waiting => simp [hops, phase, Place.phase] at still
    | offered =>
      have listens := showsSilent shown (.inr rfl)
      rw [hopsListening phase listens.1, if_pos listens.2] at still
      cases still
    | thinking => exact ⟨d, rfl⟩
    | moved =>
      rw [hopsMoved phase (showsMoved shown)] at still
      cases still
    | returned =>
      rw [hopsListening phase (.inr (returnedListens shown)), if_neg (showsReturned shown)] at still
      cases still

theorem showsAsked (shows' : Shows colour board k (some .thinking) down up) :
    k.board = board ∧ k.playerChar = colour ∧ down = [] ∧ up = [] := by
  cases shows' with
  | thinking _ _ mine held => exact ⟨held, mine, rfl, rfl⟩

theorem showsIdle (shows' : Shows colour board k (some .waiting) down up)
    (read : k.phase ≠ .colour) : k.phase = .receiving ∧ k.playerChar = colour ∧ down = [] ∧ up = [] := by
  cases shows' with
  | waiting inbox =>
    cases inbox with
    | queued phase => exact absurd phase read
    | taken phase mine => exact ⟨phase, mine, rfl, rfl⟩

end Actions

structure Resting (randNum : Nat) (board : Board) (c : Client) (s : State) : Prop where
  server : s.server.phase = .receiving c
  asked : ∃ typed, (s.klient c).phase = .moving typed
  board : (s.klient c).board = board
  colour : ∀ d, (s.klient d).playerChar = choosePlayersPawns randNum d
  waits : (s.klient c.other).phase = .receiving
  quiet : ∀ d, s.toKlient d = [] ∧ s.toServer d = []

section Runs
variable {randNum : Nat} {place : Place} {board : Board} {labels more : List (Action × List Move)}
  {s t : State}

theorem restingHolds (holds : Holds randNum place board s) (none : outstanding s = 0) :
    Resting randNum board place.toMove s := by
  obtain ⟨c, rfl⟩ := restingPlace holds none
  have read (d : Client) : (s.klient d).phase ≠ .colour := by
    rw [ne_eq, ← unreadSome, not_not]
    unfold outstanding at none
    cases d <;> omega
  have asked := stageSelf c .thinking ▸ holds.shown c
  have apart : c.other ≠ c := by cases c <;> decide
  have idle := showsIdle (stageOther apart .thinking ▸ holds.shown c.other) (read _)
  obtain ⟨held, mine, down, up⟩ := showsAsked asked
  obtain ⟨waits, others, down', up'⟩ := idle
  refine ⟨holds.phase, showsThinking asked, held, fun d => ?_, waits, fun d => ?_⟩
  · by_cases same : d = c
    · exact same ▸ mine
    · exact Client.apart same ▸ others
  · by_cases same : d = c
    · exact same ▸ ⟨down, up⟩
    · exact Client.apart same ▸ ⟨down', up'⟩

theorem restingOutstanding {c : Client} (rest : Resting randNum board c s) : outstanding s = 0 := by
  obtain ⟨typed, moving⟩ := rest.asked
  have none := hopsThinking rest.server moving
  have asked : unread (s.klient c) = 0 := if_neg (by simp [moving])
  have waits : unread (s.klient c.other) = 0 := if_neg (by simp [rest.waits])
  unfold outstanding
  cases c <;> simp only [Client.other] at waits <;> omega

theorem outstandingBound (s : State) : outstanding s ≤ 6 := by
  have first : unread (s.klient .one) ≤ 1 := by unfold unread; split <;> decide
  have second : unread (s.klient .two) ≤ 1 := by unfold unread; split <;> decide
  have hopping : hops s ≤ 4 := by
    unfold hops turnHops
    split <;> try decide
    split <;> try decide
    split <;> decide
  unfold outstanding
  omega

theorem startLeft (first : Connected randNum s) : outstanding s = 6 := by
  unfold outstanding unread hops
  rw [first.server, (first.klients .one).1, (first.klients .two).1]
  rfl

theorem reachableClean (run : Run (distributed randNum) labels s) :
    ∃ place, Holds randNum place (latest (moves labels)) s ∧
      toMove (moves labels) = place.toMove ∧ ∀ i j, latest (moves labels) i j ≠ nul := by
  obtain ⟨place, _, holds, mover⟩ := reachableHolds run
  have wf := SharedBoard.networkWellFormed run
  exact ⟨place, holds, mover, fun i j => gameCellNotNul (wf.cells i j)⟩

theorem runOutstanding (run : Run (distributed randNum) labels s) :
    labels.countP (fun l => silent l.1) + outstanding s = 6 + 4 * (moves labels).length := by
  induction run with
  | start first => simp [startLeft first, moves]
  | @step labels s a t before next ih =>
    obtain ⟨a, made⟩ := a
    have happened : act s a = some (made,t) := next
    obtain ⟨place, holds, _, clean⟩ := reachableClean before
    have law := (actionLeft clean holds happened).1
    have count : (labels ++ [(a,made)]).countP (fun l => silent l.1) =
        labels.countP (fun l => silent l.1) + (if silent a then 1 else 0) := by
      simp [List.countP_append, List.countP_singleton]
    have made' : (moves (labels ++ [(a,made)])).length = (moves labels).length + made.length := by
      simp [moves]
    omega

theorem silentMoves (run : Run (distributed randNum) labels s)
    (steps : Steps (distributed randNum) s more t) (all : ∀ l ∈ more, silent l.1) :
    moves more = [] := by
  induction steps generalizing labels with
  | nil => rfl
  | @cons s a u more t next rest ih =>
    obtain ⟨a, made⟩ := a
    obtain ⟨first, others⟩ := List.forall_mem_cons.mp all
    have happened : act s a = some (made,u) := next
    obtain ⟨place, holds, _, clean⟩ := reachableClean run
    rw [moves, List.flatMap_cons, ← moves, ih (.step run next) others, List.append_nil]
    exact (actionLeft clean holds happened).2 first

theorem silentOutstanding (run : Run (distributed randNum) labels s)
    (steps : Steps (distributed randNum) s more t) (all : ∀ l ∈ more, silent l.1) :
    more.length + outstanding t = outstanding s := by
  have quiet := silentMoves run steps all
  have before := runOutstanding run
  have after := runOutstanding (Transition.runSteps run steps)
  have every : more.countP (fun l => silent l.1) = more.length := List.countP_eq_length.mpr all
  rw [List.countP_append, every, moves, List.flatMap_append, ← moves, ← moves, quiet,
    List.append_nil] at after
  omega

theorem nothingOutstanding (run : Run (distributed randNum) labels s) :
    (outstanding s = 0 ↔ ∀ a step, silent a → act s a ≠ some step) ∧
      (outstanding s = 0 ↔ Resting randNum (latest (moves labels)) (toMove (moves labels)) s) := by
  obtain ⟨place, holds, mover, clean⟩ := reachableClean run
  refine ⟨⟨fun none a step quiet next => ?_, fun never => ?_⟩,
    fun none => mover ▸ restingHolds holds none, restingOutstanding⟩
  · have law := (actionLeft (t := step.2) clean holds next).1
    rw [if_pos quiet, none] at law
    have made := (actionLeft (t := step.2) clean holds next).2 quiet
    rw [made] at law
    cases law
  · by_contra some'
    obtain ⟨a, step, quiet, next⟩ := silentEnabled holds some'
    exact never a step quiet next

theorem settles (run : Run (distributed randNum) labels s) :
    ∃ more t, Steps (distributed randNum) s more t ∧ (∀ l ∈ more, silent l.1) ∧ outstanding t = 0 := by
  have goes : ∀ t, (∃ labels, Run (distributed randNum) labels t) → outstanding t ≠ 0 →
      ∃ l u, silent l.1 ∧ (distributed randNum).step t l u ∧
        (∃ labels, Run (distributed randNum) labels u) ∧ outstanding u < outstanding t := by
    rintro t ⟨labels, run⟩ some'
    obtain ⟨place, holds, _, clean⟩ := reachableClean run
    obtain ⟨a, ⟨made, u⟩, quiet, next⟩ := silentEnabled holds some'
    have happened : (distributed randNum).step t (a,made) u := next
    have law := silentOutstanding run (Transition.stepsOne happened) (by simpa using quiet)
    rw [List.length_singleton] at law
    exact ⟨_, u, quiet, happened, ⟨_, .step run happened⟩, by omega⟩
  obtain ⟨more, t, steps, all, _, none⟩ := Transition.comesToRest goes ⟨labels, run⟩
  exact ⟨more, t, steps, all, none⟩

theorem rounds (run : Run (distributed randNum) labels s) :
    labels.countP (fun l => silent l.1) + outstanding s = 6 + 4 * (moves labels).length ∧
    outstanding s ≤ 6 ∧
    (∀ more t, Steps (distributed randNum) s more t → (∀ l ∈ more, silent l.1) →
      more.length + outstanding t = outstanding s ∧ moves more = []) ∧
    (∃ more t, Steps (distributed randNum) s more t ∧ (∀ l ∈ more, silent l.1) ∧
      Resting randNum (latest (moves labels)) (toMove (moves labels)) t) ∧
    ((∀ a step, silent a → act s a ≠ some step) ↔
      Resting randNum (latest (moves labels)) (toMove (moves labels)) s) := by
  have nothing := nothingOutstanding run
  refine ⟨runOutstanding run, outstandingBound s, fun more t steps all =>
    ⟨silentOutstanding run steps all, silentMoves run steps all⟩, ?_, nothing.1.symm.trans nothing.2⟩
  obtain ⟨more, t, steps, all, none⟩ := settles run
  refine ⟨more, t, steps, all, ?_⟩
  have rest := (nothingOutstanding (Transition.runSteps run steps)).2.mp none
  have same : moves (labels ++ more) = moves labels := by
    rw [moves, List.flatMap_append, ← moves, ← moves, silentMoves run steps all, List.append_nil]
  rwa [same] at rest

theorem roundsOpening : ∃ labels s, Run (distributed 0) labels s ∧ (moves labels).length = 1 ∧
    outstanding s = 5 := by
  obtain ⟨labels, s, run, counts⟩ := playedRun
    (fun labels _ => (labels.countP (fun l => silent l.1),(moves labels).length))
    SharedBoard.openingActions (5,1) rfl
  obtain ⟨five, one⟩ := Prod.mk.inj counts
  have law := (rounds run).1
  exact ⟨labels, s, run, one, by omega⟩

end Runs
end Warcaby.Rounds
