import Warcaby.Unreliable

/-! What is left once somebody has exited. The board reaches a program that is gone, and
whoever waits for it reads the end of its stream: at most one more move is made, and
one after the other the programs exit. -/
namespace Warcaby.Shutdown
open ByteStream Tlv MakeMove Unreliable
open Server (Client)
open Session (State Move moves centralised centralisedWellFormed)
open Token (Place Stage showsCases stageSelf)
open Transition (Run Steps)

/- How often the board can still be handed on, a call of `make_move` apart, once a
program is gone. -/
def handsLeft : Party → Place → Nat
  | .server, .turn _ .offered => 2
  | .server, .turn _ .thinking => 1
  | .server, .turn _ .moved => 1
  | .server, _ => 0
  | .client .one, .colours .one => 3
  | .client .one, .colours .two => 2
  | .client .two, .colours .one => 7
  | .client .two, .colours .two => 6
  | .client d, .turn c stage =>
    if c = d then
      match stage with
      | .waiting => 1
      | .returned => 6
      | _ => 0
    else
      match stage with
      | .waiting => 5
      | .offered => 4
      | .thinking => 3
      | .moved => 3
      | .returned => 2

def movesLeft : Party → Place → Nat
  | .server, .turn _ .offered => 1
  | .server, .turn _ .thinking => 1
  | .server, _ => 0
  | .client d, .colours _ => if d = .one then 0 else 1
  | .client d, .turn c stage =>
    match stage with
    | .moved => 0
    | .returned => if c = d then 1 else 0
    | _ => if c = d then 0 else 1

section Potential
variable {randNum : Nat} {place : Place} {board : Board} {s t : State} {a : Action}
  {made : List Move} {gone : Party} {labels more : List (Action × List Move)} {c : Client}

theorem handsNext (other : actor place ≠ gone) :
    handsLeft gone (next place) + (1 - calls place) ≤ handsLeft gone place ∧
      movesLeft gone (next place) + calls place ≤ movesLeft gone place := by
  revert other
  cases gone with
  | server =>
    cases place with
    | colours c => cases c <;> decide
    | turn c stage => cases c <;> cases stage <;> decide
  | client d =>
    cases place with
    | colours c => cases c <;> cases d <;> decide
    | turn c stage => cases c <;> cases stage <;> cases d <;> decide

theorem handsBound (gone : Party) (place : Place) :
    handsLeft gone place ≤ (if gone = .server then 2 else 7) ∧ movesLeft gone place ≤ 1 := by
  cases gone with
  | server =>
    cases place with
    | colours c => cases c <;> decide
    | turn c stage => cases c <;> cases stage <;> decide
  | client d =>
    cases place with
    | colours c => cases c <;> cases d <;> decide
    | turn c stage => cases c <;> cases stage <;> cases d <;> decide

structure Left (randNum : Nat) (gone : Party) (hands turns : Nat) (s : State) : Prop where
  exited : Exited s gone
  holds : ∃ place board done, Loose randNum place board s ∧
    Run (centralised randNum) done (board,place.toMove) ∧
    handsLeft gone place + weight s = hands ∧ movesLeft gone place = turns

theorem leftStep {hands turns : Nat} (left : Left randNum gone hands turns s)
    (happened : act s a = some (made,t)) :
    ∃ hands' turns', Left randNum gone hands' turns' t ∧
      hands' + (if silent a then 1 else 0) ≤ hands ∧ turns' + made.length ≤ turns := by
  obtain ⟨exited, place, board, done, loose, run, rfl, rfl⟩ := left
  have still := staysExited happened exited
  have clean := fun i j => gameCellNotNul ((centralisedWellFormed run).cells i j)
  cases outcome clean loose happened with
  | stays loose none lighter =>
    refine ⟨_, _, ⟨still, place, board, done, loose, run, rfl, rfl⟩, by omega, ?_⟩
    rw [none, List.length_nil, Nat.add_zero]
  | goes board' loose running moves count typing lighter =>
    have other : actor place ≠ gone := fun same => running (same ▸ exited)
    obtain ⟨fewer, shorter⟩ := handsNext other
    refine ⟨_, _, ⟨still, next place, board', _, loose, Transition.runSteps run moves, rfl, rfl⟩,
      ?_, by omega⟩
    split
    · rename_i quiet
      have none := typing quiet
      omega
    · omega

theorem leftSteps {hands turns : Nat} (left : Left randNum gone hands turns s)
    (steps : Steps (unreliable randNum) s more t) :
    more.countP (fun l => silent l.1) ≤ hands ∧ (moves more).length ≤ turns := by
  induction steps generalizing hands turns with
  | nil => exact ⟨Nat.zero_le _, Nat.zero_le _⟩
  | @cons s l u more t next rest ih =>
    obtain ⟨a, made⟩ := l
    have happened : act s a = some (made,u) := next
    obtain ⟨hands', turns', left', fewer, shorter⟩ := leftStep left happened
    obtain ⟨quiet, made'⟩ := ih left'
    have length : (moves ((a,made) :: more)).length =
        made.length + (moves more).length := by
      simp [moves]
    have count : ((a,made) :: more).countP (fun l => silent l.1) =
        more.countP (fun l => silent l.1) + (if silent a then 1 else 0) := List.countP_cons
    exact ⟨by omega, by omega⟩

theorem leftReachable (run : Run (unreliable randNum) labels s) (exited : Exited s gone) :
    ∃ hands turns, Left randNum gone hands turns s ∧ hands ≤ 10 ∧ turns ≤ 1 := by
  obtain ⟨place, run', loose, _⟩ := reachableLoose run
  refine ⟨_, _, ⟨exited, place, _, _, loose, run', rfl, rfl⟩, ?_, (handsBound gone place).2⟩
  have server := loadBounded s.server
  have light (c : Client) : klientLoad (s.klient c) ≤ 2 := by
    unfold klientLoad
    split <;> decide
  have first := light .one
  have second := light .two
  unfold weight
  cases gone with
  | server =>
    have none : serverLoad s.server = 0 := by
      simp only [serverLoad, (show s.server.phase = .exited from exited)]
    have hands : handsLeft .server place ≤ 2 := (handsBound .server place).1
    omega
  | client d =>
    have none : klientLoad (s.klient d) = 0 := by
      simp only [klientLoad, (show (s.klient d).phase = .exited from exited)]
    have hands : handsLeft (.client d) place ≤ 7 := (handsBound (.client d) place).1
    cases d <;> omega

end Potential

section Ready
variable {randNum : Nat} {place : Place} {board : Board} {s : State} {c : Client} {gone : Party}

theorem partReady {limit : Nat} {closed : Prop} [Decidable closed] {channel : List Byte}
    (bounded : limit ≤ bufferSize) (some' : 0 < limit) (ready : channel ≠ [] ∨ closed) :
    ∃ chunk rest, recvPart limit bounded closed channel 1 = some (chunk,rest) := by
  unfold recvPart
  by_cases empty : channel = []
  · rw [if_pos empty, if_pos (ready.resolve_left (fun occupied => occupied empty))]
    exact ⟨_, _, rfl⟩
  · rw [if_neg empty, dif_pos ⟨Nat.one_pos, some'⟩]
    exact ⟨_, _, rfl⟩

theorem receivesReady (listens : (s.klient c).phase = .colour ∨ (s.klient c).phase = .receiving)
    (ready : s.toKlient c ≠ [] ∨ Exited s .server) : ∃ step, act s (.receives c 1) = some step := by
  have some' : 0 < Klient.wanted (s.klient c) := by
    unfold Klient.wanted
    split <;> decide
  obtain ⟨chunk, rest, taken⟩ := partReady (Klient.wantedBounded (s.klient c)) some' ready
  obtain ⟨next, received⟩ := Klient.receiveReady chunk listens
  simp only [act, klientRecv, taken, received, Option.bind_eq_bind, Option.bind_some]
  exact ⟨_, rfl⟩

theorem takesReady (waits : s.server.phase = .receiving c)
    (ready : s.toServer c ≠ [] ∨ Exited s (.client c)) :
    ∃ step, act s (.serverReceives 1) = some step := by
  obtain ⟨chunk, rest, taken⟩ := partReady (Nat.le_refl bufferSize) (by decide) ready
  obtain ⟨events, next, received⟩ := Server.receiveReady chunk waits
  simp only [act, waits, taken, received, Option.bind_eq_bind, Option.bind_some]
  exact ⟨_, rfl⟩

theorem sendsReady (sending : (s.klient c).phase = .sending) :
    ∃ step, act s (.sends c) = some step := by
  simp only [act, Session.act, Klient.send, sending, Option.bind_eq_bind, Option.bind_some]
  exact ⟨_, rfl⟩

theorem orphanReady (loose : Loose randNum place board s) (closed : Exited s .server)
    (running : ¬ Exited s (.client c)) (idle : ∀ typed, (s.klient c).phase ≠ .moving typed) :
    ∃ a step, silent a ∧ act s a = some step := by
  have reads (listens : (s.klient c).phase = .colour ∨ (s.klient c).phase = .receiving) :
      ∃ a step, silent a ∧ act s a = some step := by
    obtain ⟨step, happens⟩ := receivesReady listens (.inr closed)
    exact ⟨_, step, rfl, happens⟩
  rcases loose.client c with exited | ⟨_, receiving, _⟩ | ⟨up, shows'⟩
  · exact absurd exited running
  · exact reads (.inr receiving)
  · rcases showsCases shows' with listens | ⟨_, typed, moving⟩ | ⟨_, sending⟩
    · exact reads listens
    · exact absurd moving (idle typed)
    · obtain ⟨step, happens⟩ := sendsReady sending
      exact ⟨_, step, rfl, happens⟩

theorem serverReady (loose : Loose randNum place board s) (running : ¬ Exited s .server)
    (idle : ∀ c typed, (s.klient c).phase ≠ .moving typed) :
    ∃ a step, silent a ∧ act s a = some step := by
  obtain ⟨phase, _, _, up⟩ := servingRunning loose running
  have sends (ready : (Server.send s.server).isSome = true) :
      ∃ a step, silent a ∧ act s a = some step := by
    obtain ⟨step, happens⟩ := Discipline.serverSendsEnabled ready
    exact ⟨.serverSends, step, rfl, happens⟩
  cases place with
  | colours c => cases c <;> exact sends (by simp [Server.send, phase, Place.phase])
  | turn c stage =>
    by_cases waiting : stage = .waiting
    · subst waiting
      exact sends (by simp [Server.send, phase, Place.phase])
    · have waits : s.server.phase = .receiving c := by
        cases stage <;> first | exact phase | exact absurd rfl waiting
      have takes (ready : s.toServer c ≠ [] ∨ Exited s (.client c)) :
          ∃ a step, silent a ∧ act s a = some step := by
        obtain ⟨step, happens⟩ := takesReady waits ready
        exact ⟨_, step, rfl, happens⟩
      rcases loose.client c with exited | ⟨closed, _⟩ | ⟨up', shows'⟩
      · exact takes (.inr exited)
      · exact absurd closed running
      · rw [stageSelf] at shows'
        cases stage with
        | waiting => exact absurd rfl waiting
        | offered =>
          obtain ⟨occupied, listens⟩ := Discipline.showsOffered shows'
          obtain ⟨step, happens⟩ := receivesReady listens (.inl occupied)
          exact ⟨_, step, rfl, happens⟩
        | thinking =>
          obtain ⟨typed, moving⟩ := Discipline.showsThinking shows'
          exact absurd moving (idle c typed)
        | moved =>
          obtain ⟨step, happens⟩ := sendsReady (Discipline.showsMoved shows')
          exact ⟨_, step, rfl, happens⟩
        | returned =>
          refine takes (.inl ?_)
          rw [up c, stageSelf, if_pos rfl]
          exact frameOccupied board

end Ready

theorem shutdown {randNum : Nat} {labels : List (Action × List Move)} {s : State}
    {gone : Party} (run : Run (unreliable randNum) labels s) (exited : Exited s gone) :
    (∀ more t, Steps (unreliable randNum) s more t →
      more.countP (fun l => silent l.1) ≤ 10 ∧ (moves more).length ≤ 1) ∧
    ∃ more t, Steps (unreliable randNum) s more t ∧ (∀ l ∈ more, silent l.1) ∧
      ((∃ c typed, (t.klient c).phase = .moving typed) ∨ ∀ party, Exited t party) := by
  obtain ⟨hands, turns, left, few, one⟩ := leftReachable run exited
  have bounds : ∀ more t, Steps (unreliable randNum) s more t →
      more.countP (fun l => silent l.1) ≤ 10 ∧ (moves more).length ≤ 1 := by
    intro more t steps
    have bound := leftSteps left steps
    exact ⟨by omega, by omega⟩
  refine ⟨bounds, ?_⟩
  obtain ⟨more, t, steps, all, rest⟩ := Transition.boundedRest (A := unreliable randNum) (t := s)
    (fun more t steps all => by
      rw [← List.countP_eq_length.mpr all]
      exact (bounds more t steps).1)
  refine ⟨more, t, steps, all, ?_⟩
  have never (a : Action) (step) (quiet : silent a) : act t a ≠ some step :=
    fun happens => rest (a,step.1) step.2 quiet happens
  obtain ⟨place, _, loose, _⟩ := reachableLoose (Transition.runSteps run steps)
  by_contra going
  push Not at going
  obtain ⟨idle, party, running⟩ := going
  by_cases closed : Exited t .server
  · cases party with
    | server => exact running closed
    | client c =>
      obtain ⟨a, step, quiet, happens⟩ := orphanReady loose closed running (idle c)
      exact never a step quiet happens
  · obtain ⟨a, step, quiet, happens⟩ := serverReady loose closed idle
    exact never a step quiet happens

def lateActions : List Action :=
  [.serverSends,.serverSends,.receives .one 1,.serverSends,.receives .one 66,
    .types .one ⟨3,2,4,3⟩,.sends .one,.serverReceives 66,.serverSends,.serverReceives 1,
    .receives .one 1]

theorem shutdownLate : ∃ first s more t,
    act Session.connected (.stops (.client .two)) = some (first,s) ∧
    Transition.doAll act s lateActions = some (more,t) ∧
    more.countP (fun l => silent l.1) = 10 ∧ (moves more).length ≤ 1 := by
  obtain ⟨first, s, stops⟩ : ∃ first s,
      act Session.connected (.stops (.client .two)) = some (first,s) := ⟨_, _, rfl⟩
  obtain ⟨more, t, happen⟩ : ∃ more t, Transition.doAll act s lateActions = some (more,t) := by
    cases Option.some.inj stops
    exact ⟨_, _, rfl⟩
  have count : more.countP (fun l => silent l.1) = 10 := by
    cases Option.some.inj stops
    cases Option.some.inj happen
    rfl
  have exited : Exited s (.client .two) := by
    cases Option.some.inj stops
    rfl
  have run : Run (unreliable 0) ([] ++ [(.stops (.client .two),first)]) s :=
    .step (.start Session.connectedStart) stops
  have steps := Transition.doAllSteps (M := unreliable 0) (fun _ _ _ _ happened => happened) happen
  exact ⟨first, s, more, t, stops, happen, count, ((shutdown run exited).1 more t steps).2⟩

end Warcaby.Shutdown
