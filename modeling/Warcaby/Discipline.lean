import Warcaby.Token

/-! What the streams see: at most one frame on its way, at most one player to move,
colours handed out once, and always somebody who can go on. -/
namespace Warcaby.Discipline
open ByteStream Tlv MakeMove Session Token
open Server (Client choosePlayersPawns)
open Transition (Run)

/- Frames in a stretch of a stream, after `skip` bytes of one already counted. A byte
that does not start a frame, such as a colour, is passed over. -/
def countFrames : Nat → List Byte → Nat
  | _, [] => 0
  | skip + 1, _ :: rest => countFrames skip rest
  | 0, first :: rest =>
    if first = 0x01 then 1 + countFrames (1 + (rest.headD nul).toNat) rest else countFrames 0 rest

def framesInFlight (s : State) : Nat :=
  countFrames 0 (s.toKlient .one) + countFrames 0 (s.toServer .one) +
    (countFrames 0 (s.toKlient .two) + countFrames 0 (s.toServer .two))

/- Past the `recv` of a board and before the `send` of the next one. -/
def OnTurn (k : Klient.State) : Prop := (∃ typed, k.phase = .moving typed) ∨ k.phase = .sending

theorem countSkip (bytes : List Byte) {skip : Nat} (enough : bytes.length ≤ skip) :
    countFrames skip bytes = 0 := by
  induction bytes generalizing skip with
  | nil => cases skip <;> rfl
  | cons b rest ih =>
    cases skip with
    | zero => simp at enough
    | succ skip => exact ih (Nat.succ_le_succ_iff.mp enough)

theorem countBoard (board : Board) : countFrames 0 (boardFrame board) = 1 := by
  have small := strlenBoard board
  rw [frameBytes, countFrames, if_pos rfl, countSkip]
  rw [List.length_cons, List.headD_cons, lengthByte (by omega), List.length_take]
  omega

theorem countColour (randNum : Nat) (c : Client) (rest : List Byte) :
    countFrames 0 (choosePlayersPawns randNum c :: rest) = countFrames 0 rest := by
  rw [assignedMan, countFrames, if_neg]
  cases assigned randNum c <;> decide

section Clients
variable {randNum : Nat} {c : Client} {board : Board} {k : Klient.State} {stage : Option Stage}
  {down up : List Byte}

theorem showsFrames (shows' : Shows (choosePlayersPawns randNum c) board k stage down up) :
    countFrames 0 down + countFrames 0 up =
      if stage = some .offered ∨ stage = some .returned then 1 else 0 := by
  cases shows' with
  | unassigned => rfl
  | waiting inbox =>
    cases inbox with
    | queued => rw [countColour]; rfl
    | taken => rfl
  | offered inbox =>
    cases inbox with
    | queued => rw [countColour, countBoard]; rfl
    | taken => rw [countBoard]; rfl
  | thinking => rfl
  | moved => rfl
  | returned => rw [countBoard]; rfl

theorem showsOnTurn {colour : Byte} (shows' : Shows colour board k stage down up)
    (turn : OnTurn k) : stage = some .thinking ∨ stage = some .moved := by
  rcases showsCases shows' with listens | ⟨thinking, _⟩ | ⟨moved, _⟩
  · rcases listens with phase | phase <;> simp [OnTurn, phase] at turn
  · exact .inl thinking
  · exact .inr moved

theorem showsColour {colour : Byte} (shows' : Shows colour board k stage down up) :
    (k.phase ≠ .colour → k.playerChar = colour) ∧
      (k.phase = .colour → down = [] ∨ ∃ rest, down = colour :: rest) := by
  cases shows' with
  | unassigned phase => exact ⟨fun given => absurd phase given, fun _ => .inl rfl⟩
  | waiting inbox =>
    cases inbox with
    | queued phase => exact ⟨fun given => absurd phase given, fun _ => .inr ⟨_, rfl⟩⟩
    | taken phase mine => exact ⟨fun _ => mine, fun _ => .inl rfl⟩
  | offered inbox =>
    cases inbox with
    | queued phase => exact ⟨fun given => absurd phase given, fun _ => .inr ⟨_, rfl⟩⟩
    | taken phase mine => exact ⟨fun _ => mine, fun first => by rw [phase] at first; cases first⟩
  | thinking _ phase mine => exact ⟨fun _ => mine, fun _ => .inl rfl⟩
  | moved phase mine => exact ⟨fun _ => mine, fun _ => .inl rfl⟩
  | returned phase mine => exact ⟨fun _ => mine, fun _ => .inl rfl⟩

theorem showsOffered {colour : Byte} (shows' : Shows colour board k (some .offered) down up) :
    down ≠ [] ∧ (k.phase = .colour ∨ k.phase = .receiving) := by
  cases shows' with
  | offered inbox =>
    cases inbox with
    | queued phase => exact ⟨List.cons_ne_nil _ _, .inl phase⟩
    | taken phase => exact ⟨frameOccupied board, .inr phase⟩

theorem showsReturned {colour : Byte} (shows' : Shows colour board k (some .returned) down up) :
    up ≠ [] := by
  cases shows' with
  | returned => exact frameOccupied board

theorem showsMoved {colour : Byte} (shows' : Shows colour board k (some .moved) down up) :
    k.phase = .sending := by
  cases shows' with
  | moved phase => exact phase

theorem showsThinking {colour : Byte} (shows' : Shows colour board k (some .thinking) down up) :
    ∃ typed, k.phase = .moving typed := by
  cases shows' with
  | thinking typed phase => exact ⟨typed, phase⟩

end Clients

section Reachable
variable {randNum : Nat} {place : Place} {board : Board} {s : State} {c : Client}

theorem holdsFrames (holds : Holds randNum place board s) : framesInFlight s ≤ 1 := by
  unfold framesInFlight
  rw [showsFrames (holds.shown .one), showsFrames (holds.shown .two)]
  cases place with
  | colours c => cases c <;> decide
  | turn c stage => cases c <;> cases stage <;> decide

theorem holdsOneTurn (holds : Holds randNum place board s) : ¬ ∀ c, OnTurn (s.klient c) := by
  intro both
  have first := showsOnTurn (holds.shown .one) (both .one)
  have second := showsOnTurn (holds.shown .two) (both .two)
  revert first second
  cases place with
  | colours c => cases c <;> decide
  | turn c stage => cases c <;> cases stage <;> decide

theorem colourTaken {t : State} {made : List Move} (holds : Holds randNum place board s)
    (first : (s.klient c).phase = .colour) (next : act s (.receives c) = some (made,t)) :
    s.toKlient c = choosePlayersPawns randNum c :: t.toKlient c ∧
      (t.klient c).playerChar = choosePlayersPawns randNum c := by
  obtain ⟨chunk, rest, klient, taken, received, rfl, rfl⟩ := klientReceived next
  obtain ⟨occupied, bytes, left⟩ := recvTaken taken
  rcases (showsColour (holds.shown c)).2 first with empty | ⟨later, queued⟩
  · exact absurd empty occupied
  · have wanted : Klient.wanted (s.klient c) = 1 := if_pos first
    rw [wanted, queued] at bytes left
    rw [Klient.receiveColour first bytes] at received
    cases Option.some.inj received
    refine ⟨?_, ?_⟩
    · simpa [left] using queued
    · simp only [Function.update_self]

theorem serverSendsEnabled (ready : (Server.send s.server).isSome = true) :
    ∃ step, act s .serverSends = some step := by
  obtain ⟨sent, ok⟩ := Option.isSome_iff_exists.mp ready
  simp only [act, ok, Option.bind_eq_bind, Option.bind_some]
  exact ⟨_, rfl⟩

theorem receivesEnabled (holds : Holds randNum (.turn c .offered) board s) :
    ∃ step, act s (.receives c) = some step := by
  have shown := holds.shown c
  rw [stageSelf] at shown
  obtain ⟨occupied, listens⟩ := showsOffered shown
  obtain ⟨chunk, rest, taken⟩ := recvReady (Klient.wantedBounded (s.klient c)) occupied
  obtain ⟨next, received⟩ := Klient.receiveReady chunk listens
  simp only [act, taken, received, Option.bind_eq_bind, Option.bind_some]
  exact ⟨_, rfl⟩

theorem sendsEnabled (holds : Holds randNum (.turn c .moved) board s) :
    ∃ step, act s (.sends c) = some step := by
  have shown := holds.shown c
  rw [stageSelf] at shown
  simp only [act, Klient.send, showsMoved shown, Option.bind_eq_bind, Option.bind_some]
  exact ⟨_, rfl⟩

theorem serverReceivesEnabled (holds : Holds randNum (.turn c .returned) board s) :
    ∃ step, act s .serverReceives = some step := by
  have phase : s.server.phase = .receiving c := holds.phase
  have shown := holds.shown c
  rw [stageSelf] at shown
  obtain ⟨chunk, rest, taken⟩ := recvReady (Nat.le_refl bufferSize) (showsReturned shown)
  obtain ⟨events, next, received⟩ := Server.receiveReady chunk phase
  simp only [act, phase, taken, received, Option.bind_eq_bind, Option.bind_some]
  exact ⟨_, rfl⟩

theorem someoneEnabled (holds : Holds randNum place board s)
    (idle : ∀ c typed, (s.klient c).phase ≠ .moving typed) : ∃ a step, act s a = some step := by
  have phase := holds.phase
  cases place with
  | colours c =>
    cases c <;> exact ⟨_, serverSendsEnabled (by simp [Server.send, phase, Place.phase])⟩
  | turn c stage =>
    cases stage with
    | waiting => exact ⟨_, serverSendsEnabled (by simp [Server.send, phase, Place.phase])⟩
    | offered => exact ⟨_, receivesEnabled holds⟩
    | thinking =>
      have shown := holds.shown c
      rw [stageSelf] at shown
      obtain ⟨typed, moving⟩ := showsThinking shown
      exact absurd moving (idle c typed)
    | moved => exact ⟨_, sendsEnabled holds⟩
    | returned => exact ⟨_, serverReceivesEnabled holds⟩

end Reachable

theorem coloursDiffer (randNum : Nat) :
    choosePlayersPawns randNum .one ≠ choosePlayersPawns randNum .two := by
  have other : assigned randNum .two = (assigned randNum .one).other := assignedOther randNum .one
  rw [assignedMan, assignedMan, other]
  cases assigned randNum .one <;> decide

theorem tokenDiscipline {randNum : Nat} {labels : List (Action × List Move)} {s : State}
    (run : Run (distributed randNum) labels s) :
    framesInFlight s ≤ 1 ∧
    (¬ ∀ c, OnTurn (s.klient c)) ∧
    (∀ c, (s.klient c).phase ≠ .colour → (s.klient c).playerChar = choosePlayersPawns randNum c) ∧
    (∀ c made t, (s.klient c).phase = .colour → act s (.receives c) = some (made,t) →
      s.toKlient c = choosePlayersPawns randNum c :: t.toKlient c ∧
        (t.klient c).playerChar = choosePlayersPawns randNum c) ∧
    choosePlayersPawns randNum .one ≠ choosePlayersPawns randNum .two ∧
    ((∀ c typed, (s.klient c).phase ≠ .moving typed) → ∃ a step, act s a = some step) := by
  obtain ⟨place, _, holds, _⟩ := reachableHolds run
  exact ⟨holdsFrames holds, holdsOneTurn holds, fun c => (showsColour (holds.shown c)).1,
    fun c made t first next => colourTaken holds first next, coloursDiffer randNum,
    someoneEnabled holds⟩

def earlyActions : List Action := [.serverSends,.serverSends,.serverSends]

theorem tokenDisciplineEarly : ∃ labels s, Run (distributed 0) labels s ∧
    framesInFlight s ≤ 1 ∧ ∃ a step, act s a = some step := by
  obtain ⟨labels, s, run, phases⟩ := playedRun (fun _ s c => (s.klient c).phase) earlyActions
    (fun _ => .colour) rfl
  have law := tokenDiscipline run
  refine ⟨labels, s, run, law.1, law.2.2.2.2.2 (fun c typed moving => ?_)⟩
  have colour : (s.klient c).phase = .colour := congrFun phases c
  rw [moving] at colour
  cases colour

end Warcaby.Discipline
