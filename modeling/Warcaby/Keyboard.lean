import Warcaby.Decimal
import Warcaby.Iteration
import Warcaby.Readings
import Warcaby.Replay

/-! The players at their keyboards: the distributed system, with one stream of tokens for
all the calls of `make_move` that a client makes. The games are those whose calls can have
seen what they did. -/
namespace Warcaby.Keyboard
open MakeMove Rulebook Scanf Reading Readings
open Decimal (Input)
open Server (Client choosePlayersPawns)
open Session (Move distributed centralised typedSoFar)
open Replay (typedBy inputsOf)
open Rounds (silent)
open Transition (Machine Run Steps)

structure State where
  net : Session.State
  position : Client → Nat
  vars : Client → Coordinates

-- x1 .. y2 are not initialised: a call that has not read yet has what is on the stack.
def current (k : Klient.State) (stack vars : Coordinates) : Coordinates :=
  if typedSoFar k = [] then stack else vars

def afterwards (k : Klient.State) (v : Coordinates) : Coordinates :=
  match MakeMove.pass k.board k.playerChar v with
  | .ok r => r.vars
  | .error _ => v

def act (keys : Client → Input) (stack : Stack) (s : State) (a : Session.Action) :
    Option (List Move × State) := do
  let (made,net) ← Session.act s.net a
  match a with
  | .types c q =>
    let vars := current (s.net.klient c) stack.vars (s.vars c)
    let (v,stop) := readCoordinates (keys c).tokens vars (s.position c)
    if q = v then
      some (made,{
        net := net
        position := Function.update s.position c stop
        vars := Function.update s.vars c (afterwards (s.net.klient c) v)})
    else none
  | _ => some (made,{s with net := net})

def keyboard (keys : Client → Input) (randNum : Nat) :
    Machine State (Session.Action × List Move) where
  start s := Session.Connected randNum s.net ∧ ∀ c, s.position c = 0
  step s label t := ∃ stack, act keys stack s label.1 = some (label.2,t)

section Inversion
variable {keys : Client → Input} {randNum : Nat} {stack : Stack} {s t : State}
  {a : Session.Action} {made : List Move} {c : Client} {q : Coordinates}
  {labels : List (Session.Action × List Move)}

theorem actNet (next : act keys stack s a = some (made,t)) : Session.act s.net a = some (made,t.net) := by
  simp only [act, Option.bind_eq_bind, Option.bind_eq_some_iff] at next
  obtain ⟨⟨made', net⟩, happened, next⟩ := next
  rw [happened]
  dsimp only at next
  split at next
  · split at next
    · cases Option.some.inj next
      rfl
    · cases next
  · cases Option.some.inj next
    rfl

theorem actTyped (next : act keys stack s (.types c q) = some (made,t)) :
    let vars := current (s.net.klient c) stack.vars (s.vars c)
    q = (readCoordinates (keys c).tokens vars (s.position c)).1 ∧
      t.position = Function.update s.position c (readCoordinates (keys c).tokens vars (s.position c)).2 ∧
      t.vars = Function.update s.vars c (afterwards (s.net.klient c) q) := by
  simp only [act, Option.bind_eq_bind, Option.bind_eq_some_iff] at next
  obtain ⟨⟨made', net⟩, _, next⟩ := next
  dsimp only at next
  split at next
  · rename_i same
    cases Option.some.inj next
    exact ⟨same, rfl, by rw [← same]⟩
  · cases next

theorem actSilent (next : act keys stack s a = some (made,t)) (quiet : silent a) :
    t.position = s.position ∧ t.vars = s.vars ∧ made = [] := by
  have happened := actNet next
  simp only [act, Option.bind_eq_bind, Option.bind_eq_some_iff] at next
  obtain ⟨⟨made', net⟩, _, next⟩ := next
  cases a with
  | types => cases quiet
  | serverSends =>
    cases Option.some.inj next
    obtain ⟨_, _, _, _, none, _⟩ := Session.serverSent happened
    exact ⟨rfl, rfl, none⟩
  | serverReceives =>
    cases Option.some.inj next
    obtain ⟨_, _, _, _, _, _, _, _, none, _⟩ := Session.serverReceived happened
    exact ⟨rfl, rfl, none⟩
  | receives c =>
    cases Option.some.inj next
    obtain ⟨_, _, _, _, _, none, _⟩ := Session.klientReceived happened
    exact ⟨rfl, rfl, none⟩
  | sends c =>
    cases Option.some.inj next
    obtain ⟨_, _, _, none, _⟩ := Session.klientSent happened
    exact ⟨rfl, rfl, none⟩

theorem netRun (run : Run (keyboard keys randNum) labels s) : Run (distributed randNum) labels s.net := by
  induction run with
  | start first => exact .start first.1
  | step before next ih =>
    obtain ⟨stack, happened⟩ := next
    exact .step ih (actNet happened)

theorem afterwardsLeft (k : Klient.State) (v : Coordinates) : afterwards k v = varsLeft v := by
  obtain ⟨r, passed⟩ := Iteration.passDefined k.board k.playerChar v
  have kept := passLeaves k.board k.playerChar v r passed
  simp only [afterwards, passed, kept]

end Inversion

def callsOf (c : Client) (done : List Move) : List (List Coordinates) :=
  (done.filter (fun m => m.client = c)).map Move.inputs

/- The calls of one client so far, and what the call in progress has seen. -/
structure Follows (tokens : Tokens) (calls : List (List Coordinates)) (values : List Coordinates)
    (position : Nat) (vars : Coordinates) (start : Nat) (stack : Stack) : Prop where
  before : Reads tokens calls start
  sees : values = seen tokens values.length stack.vars start
  reaches : position = stopped tokens values.length stack.vars start
  holds : values ≠ [] → vars = held tokens values.length stack.vars start

section Following
variable {tokens : Tokens} {calls : List (List Coordinates)} {values : List Coordinates}
  {position start : Nat} {vars v : Coordinates} {stack : Stack}

theorem followsNext (follows : Follows tokens calls values position vars start stack)
    (other : Stack) (v : Coordinates)
    (read : v = (readCoordinates tokens (if values = [] then other.vars else vars) position).1) :
    ∃ stack', Follows tokens calls (values ++ [v])
      (readCoordinates tokens (if values = [] then other.vars else vars) position).2 (varsLeft v) start stack' := by
  obtain ⟨stack', same, seen', there⟩ : ∃ stack' : Stack,
      (if values = [] then other.vars else vars) = held tokens values.length stack'.vars start ∧
      values = seen tokens values.length stack'.vars start ∧
      position = stopped tokens values.length stack'.vars start := by
    by_cases none : values = []
    · subst none
      exact ⟨other, rfl, rfl, follows.reaches⟩
    · rw [if_neg none]
      exact ⟨stack, follows.holds none, follows.sees, follows.reaches⟩
  rw [same, there] at read ⊢
  obtain ⟨sees, holds, stops⟩ := readingsNext tokens values.length stack'.vars start
  have length : (values ++ [v]).length = values.length + 1 := by simp
  refine ⟨stack', follows.before, ?_, ?_, fun _ => ?_⟩
  · rw [length, sees, ← seen', ← read]
  · rw [length, stops]
  · rw [length, holds, ← read]

theorem followsCall (follows : Follows tokens calls values position vars start stack)
    (vars' : Coordinates) : Follows tokens (calls ++ [values]) [] position vars' position stack where
  before := by
    have more := follows.before.call stack values.length
    rwa [← follows.sees, ← follows.reaches] at more
  sees := rfl
  reaches := rfl
  holds := fun some' => absurd rfl some'

end Following

section Runs
variable {keys : Client → Input} {randNum : Nat} {stack : Stack} {s t : State}
  {a : Session.Action} {made : List Move} {c d : Client} {q : Coordinates}
  {labels : List (Session.Action × List Move)} {done : List Move}

def Struck (keys : Client → Input) (done : List Move) (s : State) (c : Client) : Prop :=
  ∃ start stack, Follows (keys c).tokens (callsOf c done) (typedSoFar (s.net.klient c)) (s.position c)
    (s.vars c) start stack

theorem callsAppend (c : Client) (done more : List Move) :
    callsOf c (done ++ more) = callsOf c done ++ callsOf c more := by
  simp [callsOf]

theorem struckFrame (struck : Struck keys done s d) (none : callsOf d made = [])
    (typed : typedSoFar (t.net.klient d) = typedSoFar (s.net.klient d))
    (position : t.position d = s.position d) (vars : t.vars d = s.vars d) :
    Struck keys (done ++ made) t d := by
  unfold Struck
  rw [callsAppend, none, List.append_nil, typed, position, vars]
  exact struck

theorem struckTypes (struck : ∀ c, Struck keys done s c)
    (next : act keys stack s (.types c q) = some (made,t)) (d : Client) :
    Struck keys (done ++ made) t d := by
  have happened := actNet next
  obtain ⟨read, position, vars⟩ := actTyped next
  obtain ⟨turn, klient, scanned, listed, net⟩ := Session.klientScanned happened
  have typing := Replay.typedStep happened d
  by_cases mine : d = c
  · subst mine
    obtain ⟨start, stack', follows⟩ := struck d
    obtain ⟨stack', follows⟩ := followsNext follows stack q read
    have here : t.net.klient d = klient := by
      rw [net]
      exact Function.update_self ..
    have there := congrFun position d
    rw [Function.update_self] at there
    unfold Struck
    rw [callsAppend, listed, here, there, vars, Function.update_self, afterwardsLeft]
    rcases Replay.scannedTyped scanned with ⟨rfl, more, _⟩ | ⟨turn, rfl, fresh, _⟩
    · rw [more]
      refine ⟨start, stack', ?_⟩
      simpa [callsOf, current] using follows
    · rw [fresh]
      have one : callsOf d ((some turn).toList.map (Session.move d (s.net.klient d) q)) =
          [typedSoFar (s.net.klient d) ++ [q]] := by simp [callsOf, Session.move]
      rw [one]
      exact ⟨_, stack', followsCall follows (varsLeft q)⟩
  · have apart : t.net.klient d = s.net.klient d := by
      rw [net]
      exact Function.update_of_ne mine ..
    refine struckFrame (struck d) ?_ (by rw [apart]) ?_ ?_
    · rw [listed]
      cases turn <;> simp [callsOf, Session.move, Ne.symm mine]
    · rw [position]
      exact Function.update_of_ne mine ..
    · rw [vars]
      exact Function.update_of_ne mine ..

theorem struckSilent (struck : ∀ c, Struck keys done s c)
    (next : act keys stack s a = some (made,t)) (quiet : silent a) (d : Client) :
    Struck keys (done ++ made) t d := by
  have typing := Replay.typedStep (actNet next) d
  obtain ⟨position, vars, rfl⟩ := actSilent next quiet
  have none : typedBy d [(a,[])] = [] := Replay.silentTyped (by simpa using quiet) d
  rw [none, List.append_nil] at typing
  exact struckFrame (struck d) rfl typing (congrFun position d) (congrFun vars d)

theorem struckRun (run : Run (keyboard keys randNum) labels s) (c : Client) :
    Struck keys (Session.moves labels) s c := by
  induction run generalizing c with
  | @start s first =>
    have fresh : typedSoFar (s.net.klient c) = [] :=
      Replay.typedOfPhase (by simp [(first.1.klients c).1])
    refine ⟨0, zeros, ?_⟩
    rw [fresh, first.2 c]
    exact ⟨.none, rfl, rfl, fun some' => absurd rfl some'⟩
  | @step labels s label t before next ih =>
    obtain ⟨a, made⟩ := label
    obtain ⟨stack, happened⟩ := next
    have more : Session.moves (labels ++ [(a,made)]) = Session.moves labels ++ made := by
      simp [Session.moves]
    rw [more]
    cases a with
    | types d q => exact struckTypes ih happened c
    | _ => exact struckSilent ih happened rfl c

end Runs

section Realised
variable {keys : Client → Input} {randNum : Nat} {stack : Stack} {vars : Coordinates} {s : State}
  {net : Session.State} {made : List Move} {c : Client} {values : List Coordinates}
  {labels : List (Session.Action × List Move)} {done : List Move} {game : Board × Client}

theorem silentLift (steps : Steps (distributed randNum) s.net labels net)
    (all : ∀ l ∈ labels, silent l.1) :
    Steps (keyboard keys randNum) s labels {s with net := net} := by
  generalize first : s.net = n at steps
  induction steps generalizing s with
  | nil =>
    subst first
    exact .nil s
  | @cons n label u labels w next rest ih =>
    subst first
    obtain ⟨quiet, others⟩ := List.forall_mem_cons.mp all
    obtain ⟨a, made⟩ := label
    have happened : Session.act s.net a = some (made,u) := next
    have does : act keys zeros s a = some (made,{s with net := u}) := by
      simp only [act, happened, Option.bind_eq_bind, Option.bind_some]
      cases a with
      | types => cases quiet
      | _ => rfl
    have step : (keyboard keys randNum).step s (a,made) {s with net := u} := ⟨_, does⟩
    exact .cons step (ih (s := {s with net := u}) others rfl)

theorem silentOf (none : ∀ d, typedBy d labels = []) : ∀ l ∈ labels, silent l.1 := by
  rintro ⟨a, made⟩ inside
  cases a with
  | types d q =>
    have empty := List.flatMap_eq_nil_iff.mp (none d) _ inside
    simp at empty
  | _ => rfl

theorem scannedAgain {k next : Klient.State} {q v : Coordinates} {turn : Option MakeMove.Turn}
    {more : Option MakeMove.Turn × Klient.State} (scanned : Klient.scan k q = some (turn,next))
    (again : Klient.scan next v = some more) : typedSoFar next ≠ [] := by
  cases phase : k.phase with
  | moving typed =>
    rcases Klient.scanCases (q := q) phase with ⟨_, same⟩ | ⟨t, _, same⟩
    · cases Option.some.inj (scanned.symm.trans same)
      simp [typedSoFar]
    · cases Option.some.inj (scanned.symm.trans same)
      simp [Klient.scan] at again
  | _ => simp [Klient.scan, phase] at scanned

theorem typesAgain {q v : Coordinates} {u w : Session.State} {made more : List Move}
    (first : Session.act net (.types c q) = some (made,u))
    (again : Session.act u (.types c v) = some (more,w)) : typedSoFar (u.klient c) ≠ [] := by
  obtain ⟨turn, klient, scanned, _, rfl⟩ := Session.klientScanned first
  obtain ⟨turn', klient', scanned', _⟩ := Session.klientScanned again
  simp only [Function.update_self] at scanned' ⊢
  exact scannedAgain scanned scanned'

theorem typesLift (keys : Client → Input) (stack : Stack)
    (steps : Steps (distributed randNum) s.net labels net)
    (types : labels.map Prod.fst = values.map (.types c))
    (holds : values ≠ [] → current (s.net.klient c) stack.vars (s.vars c) = vars)
    (sees : values = seen (keys c).tokens values.length vars (s.position c)) :
    ∃ t, Steps (keyboard keys randNum) s labels t ∧ t.net = net ∧
      t.position = Function.update s.position c (stopped (keys c).tokens values.length vars (s.position c)) := by
  induction values generalizing s labels vars with
  | nil =>
    obtain rfl := List.map_eq_nil_iff.mp types
    cases steps
    exact ⟨s, .nil s, rfl, (Function.update_eq_self ..).symm⟩
  | cons v values ih =>
    obtain ⟨⟨a, made⟩, rest, rfl, rfl, more⟩ := List.map_eq_cons_iff.mp types
    cases steps with
    | @cons _ _ u _ _ next later =>
      have happened : Session.act s.net (.types c v) = some (made,u) := next
      obtain ⟨first, stops⟩ := readingsFirst (keys c).tokens values.length vars (s.position c)
      rw [List.length_cons, first] at sees
      obtain ⟨same, others⟩ := List.cons.inj sees
      have reading : current (s.net.klient c) stack.vars (s.vars c) = vars := holds (List.cons_ne_nil _ _)
      let t : State := {
        net := u
        position := Function.update s.position c (readCoordinates (keys c).tokens vars (s.position c)).2
        vars := Function.update s.vars c (afterwards (s.net.klient c) v)}
      have does : act keys stack s (.types c v) = some (made,t) := by
        simp only [act, happened, reading, Option.bind_eq_bind, Option.bind_some]
        rw [if_pos same, ← same]
      have step : (keyboard keys randNum).step s (.types c v,made) t := ⟨stack, does⟩
      have there : t.position c = (readCoordinates (keys c).tokens vars (s.position c)).2 :=
        Function.update_self ..
      have again : values ≠ [] → current (t.net.klient c) stack.vars (t.vars c) = varsLeft v := by
        intro some'
        obtain ⟨v', values, rfl⟩ := List.exists_cons_of_ne_nil some'
        obtain ⟨⟨a, made'⟩, rest, rfl, rfl, _⟩ := List.map_eq_cons_iff.mp more
        cases later with
        | cons next' _ =>
          have reads := typesAgain happened next'
          simp only [current, t, if_neg reads, Function.update_self, afterwardsLeft]
      rw [← same] at others
      rw [← there] at others
      obtain ⟨w, steps, same', position⟩ := ih (s := t) later more again others
      refine ⟨w, .cons step steps, same', ?_⟩
      rw [position, List.length_cons, stops, ← same, there]
      exact Function.update_idem ..

theorem readsBefore {m : Move} {stops : Client → Nat}
    (reads : ∀ d, Reads (keys d).tokens (callsOf d (done ++ [m])) (stops d)) :
    ∃ start, ∃ stack : Stack, (∀ d, Reads (keys d).tokens (callsOf d done) (Function.update stops m.client start d)) ∧
      m.inputs = seen (keys m.client).tokens m.inputs.length stack.vars start ∧
      stops m.client = stopped (keys m.client).tokens m.inputs.length stack.vars start := by
  have mine := reads m.client
  have last : callsOf m.client (done ++ [m]) = callsOf m.client done ++ [m.inputs] := by
    simp [callsOf]
  rw [last] at mine
  obtain ⟨start, stack, earlier, sees, stop⟩ := readsLast mine
  refine ⟨start, stack, fun d => ?_, sees, stop⟩
  by_cases same : d = m.client
  · subst same
    rw [Function.update_self]
    exact earlier
  · rw [Function.update_of_ne same]
    have theirs := reads d
    rw [callsAppend] at theirs
    simpa [callsOf, Ne.symm same] using theirs

theorem keyboardRealised (run : Run (centralised randNum) done game)
    (all : ∀ m ∈ done, m.turn.rest = []) (stops : Client → Nat)
    (reads : ∀ c, Reads (keys c).tokens (callsOf c done) (stops c)) :
    ∃ labels s, Run (keyboard keys randNum) labels s ∧ Session.moves labels = done ∧
      s.position = stops ∧ ∀ c, typedBy c labels = inputsOf c done := by
  induction run generalizing stops with
  | start first =>
    have zero : ∀ c, stops c = 0 := fun c => readsNone (reads c)
    let net : Session.State := {Session.connected with server := Server.accepted randNum}
    have start : (keyboard keys randNum).start ⟨net,stops,fun _ => ⟨0,0,0,0⟩⟩ :=
      ⟨⟨rfl, fun _ => ⟨rfl, rfl⟩, fun _ => ⟨rfl, rfl⟩⟩, zero⟩
    exact ⟨[], _, .start start, rfl, rfl, fun _ => rfl⟩
  | @step done game m next before happened ih =>
    obtain rfl := Session.centralisedState before
    obtain ⟨client, shown, inputs, turn⟩ := m
    obtain ⟨rfl, rfl, returns, rfl⟩ := happened
    dsimp only at returns
    generalize mover : Session.toMove done = c at *
    obtain ⟨start, stack, earlier, sees, stop⟩ := readsBefore reads
    dsimp only at earlier sees stop
    obtain ⟨labels, s, run, rfl, position, typed⟩ :=
      ih (fun n member => all n (List.mem_append_left _ member)) _ earlier
    obtain ⟨more, t, soFar, steps, quiet, silent', moving, same, held', colour⟩ :=
      Replay.askedNext (netRun run)
    rw [mover] at moving same held' colour
    have fresh : soFar = [] := by
      have account := (Replay.accountRun (netRun run)).typed c
      rw [typed] at account
      rw [same]
      exact List.append_right_eq_self.mp account.symm
    subst fresh
    have rest : turn.rest = [] := all ⟨c,Session.latest (Session.moves labels),inputs,turn⟩ (by simp)
    obtain ⟨qs, split, waits⟩ := Replay.returnsInputs returns rest
    rw [← held', ← colour] at waits returns
    rw [split] at returns
    have early : makeMove (t.klient c).board (t.klient c).playerChar ([] ++ qs) = .ok none := waits
    obtain ⟨later, typing, types, made⟩ := Replay.typesReturning randNum moving early returns
    rw [← split] at types
    have lifted : Steps (keyboard keys randNum) s more {s with net := t} :=
      silentLift steps (silentOf silent')
    have nothing : typedSoFar (t.klient c) = [] := by simp only [typedSoFar, moving]
    have here : s.position c = start := by rw [position, Function.update_self]
    rw [← here] at sees stop
    obtain ⟨w, strikes, _, position'⟩ :=
      typesLift keys stack (s := {s with net := t}) typing types (fun _ => if_pos nothing) sees
    have only := Replay.typedOnly types
    refine ⟨labels ++ more ++ later, w,
      Transition.runSteps (Transition.runSteps run lifted) strikes, ?_, ?_, fun d => ?_⟩
    · rw [Session.movesAppend, Session.movesAppend, quiet, List.append_nil, made, held', List.nil_append,
        ← split]
    · rw [position']
      dsimp only
      rw [← stop, position, Function.update_idem, Function.update_eq_self]
    · rw [Replay.typedByAppend, Replay.typedByAppend, silent', List.append_nil, typed,
        Replay.inputsAppend, only]
      simp [inputsOf, eq_comm]

end Realised

section Games
variable {keys : Client → Input} {randNum : Nat} {s t : State} {done : List Move} {c : Client}
  {labels : List (Session.Action × List Move)}

theorem callsRead (run : Run (keyboard keys randNum) labels s) {before after : List Move} {m : Move}
    (same : Session.moves labels = before ++ m :: after) :
    ∃ start, ∃ stack : Stack, ∃ a, Reads (keys m.client).tokens (callsOf m.client before) start ∧
      makeMoveReading (keys m.client).tokens (choosePlayersPawns randNum m.client) m.inputs.length
        m.before stack.vars start = .ok (some a) ∧
      a.board = m.turn.board ∧ a.coordinates = m.turn.typed := by
  obtain ⟨_, _, follows⟩ := struckRun run m.client
  have calls : callsOf m.client (Session.moves labels) =
      callsOf m.client before ++ [m.inputs] ++ callsOf m.client after := by
    simp [same, callsOf]
  have reads := follows.before
  rw [calls] at reads
  obtain ⟨_, mine⟩ := readsPrefix reads
  obtain ⟨start, stack, earlier, sees, _⟩ := readsLast mine
  obtain ⟨place, game, _, _⟩ := Token.reachableHolds (netRun run)
  obtain ⟨_, _, _, _, _, returns, _⟩ := Transition.runSplit game same
  rw [Session.assignedMan] at returns ⊢
  obtain ⟨a, reading, result⟩ := seenReturns returns sees
  exact ⟨start, stack, a, earlier, reading, result⟩

theorem keyboardGames (keys : Client → Input) (randNum : Nat) :
    (∀ done, (∃ labels s, Run (keyboard keys randNum) labels s ∧ Session.moves labels = done) ↔
      (∃ game, Run (centralised randNum) done game) ∧ (∀ m ∈ done, m.turn.rest = []) ∧
        ∀ c, ∃ stop, Reads (keys c).tokens (callsOf c done) stop) ∧
    ∀ labels s, Run (keyboard keys randNum) labels s → ∀ before m after,
      Session.moves labels = before ++ m :: after →
      ∃ start, ∃ stack : Stack, ∃ a, Reads (keys m.client).tokens (callsOf m.client before) start ∧
        makeMoveReading (keys m.client).tokens (choosePlayersPawns randNum m.client) m.inputs.length
          m.before stack.vars start = .ok (some a) ∧
        a.board = m.turn.board ∧ a.coordinates = m.turn.typed := by
  refine ⟨fun done => ⟨?_, ?_⟩, fun labels s run before m after same => callsRead run same⟩
  · rintro ⟨labels, s, run, rfl⟩
    obtain ⟨place, game, _, _⟩ := Token.reachableHolds (netRun run)
    refine ⟨⟨_, game⟩, (Replay.accountRun (netRun run)).last, fun c => ?_⟩
    obtain ⟨start, _, follows⟩ := struckRun run c
    exact ⟨start, follows.before⟩
  · rintro ⟨⟨game, run⟩, all, reads⟩
    choose stops reads using reads
    obtain ⟨labels, s, run', made, _⟩ := keyboardRealised run all stops reads
    exact ⟨labels, s, run', made⟩

theorem callsFlatten (c : Client) (done : List Move) : (callsOf c done).flatten = inputsOf c done := by
  induction done with
  | nil => rfl
  | cons m done ih =>
    by_cases mine : m.client = c
    · simp only [callsOf, inputsOf, List.filter_cons, mine, decide_true, if_true, List.map_cons,
        List.flatten_cons, List.flatMap_cons] at ih ⊢
      rw [ih]
    · simp only [callsOf, inputsOf, List.filter_cons, mine, decide_false, if_false,
        List.flatMap_cons, List.nil_append] at ih ⊢
      exact ih

theorem callLowered {m : Move} {v : Coordinates} {n : Nat} {p : Colour}
    (returns : makeMove m.before p.man m.inputs = .ok (some m.turn)) (rest : m.turn.rest = [])
    (iterates : m.inputs = List.iterate varsLeft v n) :
    ∃ d, m.inputs = List.iterate varsLeft v (d + 1) ∧ m.turn.typed = lowered v d := by
  obtain ⟨ply, returned⟩ := Turn.makeMoveReturned returns
  obtain ⟨before, split, _⟩ := returned.split
  rw [rest] at split
  obtain ⟨d, rfl⟩ : ∃ d, n = d + 1 := by
    have length := congrArg List.length (iterates.symm.trans split)
    rw [List.length_iterate, List.length_append] at length
    exact ⟨before.length, length⟩
  have last : m.turn.typed = varsLeft^[d] v := by
    have ends := congrArg List.getLast? (iterates.symm.trans split)
    rw [List.getLast?_concat, List.getLast?_eq_getElem?, List.length_iterate,
      List.getElem?_iterate _ _ _ _ (by omega)] at ends
    exact (Option.some.inj ends).symm
  have onBoard := typedOnBoard returned.legal.diagonal
  rw [← returned.typed, last] at onBoard
  exact ⟨d, iterates, last.trans (iterateLowered onBoard)⟩

theorem typedSplit (run : Run (keyboard keys randNum) labels s) (c : Client) :
    ∃ whole stale, Split (keys c).tokens 0 (typedBy c labels) (s.position c) whole stale ∧
      Lowering (keys c).tokens (callsOf c (Session.moves labels) ++ [typedSoFar (s.net.klient c)])
        whole.length := by
  have account := Replay.accountRun (netRun run)
  obtain ⟨start, stack, follows⟩ := struckRun run c
  obtain ⟨whole, stale, split, lowering⟩ := readsSplit (followsCall follows stack.vars).before
  rw [List.flatten_append, callsFlatten, List.flatten_singleton, ← account.typed c] at split
  exact ⟨whole, stale, split, lowering⟩

theorem gapStays (gap : Gap (keys c).tokens (s.position c)) (steps : Steps (keyboard keys randNum) s labels t) :
    t.position c = s.position c := by
  induction steps with
  | nil => rfl
  | @cons s label u labels t next rest ih =>
    obtain ⟨a, made⟩ := label
    obtain ⟨stack, happened⟩ := next
    have here : u.position c = s.position c := by
      cases a with
      | types d q =>
        obtain ⟨_, position, _⟩ := actTyped happened
        by_cases same : d = c
        · subst same
          rw [position, Function.update_self, gapReads gap]
        · rw [position, Function.update_of_ne (Ne.symm same)]
      | _ => exact congrFun (actSilent happened rfl).1 c
    rw [← here] at gap ⊢
    exact ih gap

theorem wordStays (run : Run (keyboard keys randNum) labels s) (c : Client) :
    ∃ whole stale, Split (keys c).tokens 0 (typedBy c labels) (s.position c) whole stale ∧
      (∀ before m after, Session.moves labels = before ++ m :: after → m.client = c →
        whole.length ≤ (inputsOf c before).length →
        ∃ v d, FirstRead (keys c).tokens (callsOf c before) v ∧
          m.inputs = List.iterate varsLeft v (d + 1) ∧ m.turn.typed = lowered v d) ∧
      (whole.length ≤ (inputsOf c (Session.moves labels)).length →
        ∃ v n, FirstRead (keys c).tokens (callsOf c (Session.moves labels)) v ∧
          typedSoFar (s.net.klient c) = List.iterate varsLeft v n) ∧
      (stale ≠ [] → ∀ more t, Steps (keyboard keys randNum) s more t → t.position c = s.position c) := by
  obtain ⟨whole, stale, split, lowering⟩ := typedSplit run c
  refine ⟨whole, stale, split, fun before m after same mine late => ?_, fun late => ?_,
    fun some' more t steps => gapStays (split.gap some').1 steps⟩
  · have calls : callsOf c (Session.moves labels) = callsOf c before ++ m.inputs :: callsOf c after := by
      rw [same, callsAppend]
      simp [callsOf, mine]
    rw [← callsFlatten] at late
    obtain ⟨v, n, first, iterates⟩ := lowering (callsOf c before) m.inputs
      (callsOf c after ++ [typedSoFar (s.net.klient c)]) (by rw [calls]; simp) late
    obtain ⟨place, game, _, _⟩ := Token.reachableHolds (netRun run)
    obtain ⟨_, _, _, _, _, returns, _⟩ := Transition.runSplit game same
    rw [Session.assignedMan] at returns
    have rest := (Replay.accountRun (netRun run)).last m (by rw [same]; simp)
    obtain ⟨d, values, result⟩ := callLowered returns rest iterates
    exact ⟨v, d, first, values, result⟩
  · rw [← callsFlatten] at late
    exact lowering _ _ [] rfl late

def wordTokens : Client → List Token
  | .one => integers ⟨3,2,4,3⟩ ++ [.word "ok"]
  | .two => integers ⟨6,1,5,2⟩

theorem wordPlain (c : Client) : ∀ t ∈ wordTokens c, Decimal.Plain t := by
  cases c <;> decide

def wordKeys (c : Client) : Input := Decimal.ofTokens (wordTokens c) (wordPlain c)

theorem wordReads : ∃ labels s, Run (keyboard wordKeys 0) labels s ∧
    (Session.moves labels).map Move.inputs = [[⟨3,2,4,3⟩],[⟨6,1,5,2⟩],[⟨3,4,4,5⟩]] := by
  let scripts : Client → List Coordinates
    | .one => [⟨3,2,4,3⟩,⟨3,4,4,5⟩]
    | .two => [⟨6,1,5,2⟩]
  obtain ⟨⟨game, run⟩, last, _⟩ := Replay.replayRun 0 scripts
  have first : callsOf .one (Replay.replay 0 scripts) = [[⟨3,2,4,3⟩],[⟨3,4,4,5⟩]] := by decide +kernel
  have second : callsOf .two (Replay.replay 0 scripts) = [[⟨6,1,5,2⟩]] := by decide +kernel
  have reads : ∀ c, ∃ stop, Reads (wordKeys c).tokens (callsOf c (Replay.replay 0 scripts)) stop := by
    rintro (_ | _)
    · rw [first]
      exact ⟨_, .call (.call .none zeros 1) ⟨⟨3,4,4,5⟩,by decide⟩ 1⟩
    · rw [second]
      exact ⟨_, .call .none zeros 1⟩
  choose stops reads using reads
  obtain ⟨labels, s, run', made, _⟩ := keyboardRealised run last stops reads
  refine ⟨labels, s, run', ?_⟩
  rw [made]
  decide +kernel

theorem wordStaysThere : ∃ labels s, Run (keyboard wordKeys 0) labels s ∧
    (Session.moves labels).map Move.inputs = [[⟨3,2,4,3⟩],[⟨6,1,5,2⟩],[⟨3,4,4,5⟩]] ∧
    ∃ whole stale, Split (wordKeys .one).tokens 0 (typedBy .one labels) (s.position .one) whole stale ∧
      (∀ before m after, Session.moves labels = before ++ m :: after → m.client = .one →
        whole.length ≤ (inputsOf .one before).length →
        ∃ v d, FirstRead (wordKeys .one).tokens (callsOf .one before) v ∧
          m.inputs = List.iterate varsLeft v (d + 1) ∧ m.turn.typed = lowered v d) ∧
      (whole.length ≤ (inputsOf .one (Session.moves labels)).length →
        ∃ v n, FirstRead (wordKeys .one).tokens (callsOf .one (Session.moves labels)) v ∧
          typedSoFar (s.net.klient .one) = List.iterate varsLeft v n) ∧
      (stale ≠ [] → ∀ more t, Steps (keyboard wordKeys 0) s more t → t.position .one = s.position .one) := by
  obtain ⟨labels, s, run, inputs⟩ := wordReads
  exact ⟨labels, s, run, inputs, wordStays run .one⟩

end Games
end Warcaby.Keyboard
