import Warcaby.Decimal
import Warcaby.Keyboard

/-! The keyboards as bytes. A text is the tokens that it spells: the system runs on it as
it does on those, and every game can be typed, four numbers to a line. -/
namespace Warcaby.Typing
open MakeMove Decimal Scanf Reading
open Server (Client)
open Session (Move centralised)
open Replay (inputsOf replay)
open Keyboard (keyboard current afterwards callsOf)
open Readings (Reads Stack numbers readsWhole)
open Transition (Machine Run Steps)

section Lines
variable {randNum start : Nat} {qs : List Coordinates} {done : List Move}

def AllFit (qs : List Coordinates) : Prop := ∀ q ∈ qs, ∀ z ∈ numbers q, Fits z

def line (q : Coordinates) : List Byte :=
  decimal q.x1 ++ [blank] ++ decimal q.y1 ++ [blank] ++ decimal q.x2 ++ [blank] ++ decimal q.y2 ++ [newline]

theorem integersPlain (fit : AllFit qs) : ∀ t ∈ qs.flatMap integers, Plain t := by
  intro t inside
  obtain ⟨q, member, typed⟩ := List.mem_flatMap.mp inside
  obtain ⟨z, number, rfl⟩ := List.mem_map.mp (show t ∈ (numbers q).map Token.integer from typed)
  exact fit q member z number

def spelled (qs : List Coordinates) (fit : AllFit qs) : Input :=
  ofTokens (qs.flatMap integers) (integersPlain fit)

theorem spellsLine {tokens : Tokens} {text : List Byte} {q : Coordinates}
    (ahead : Ahead tokens start (integers q)) (more : Spells tokens (start + 4) text) :
    Spells tokens start (line q ++ text) := by
  obtain ⟨x1, ahead⟩ := aheadCons.mp ahead
  obtain ⟨y1, ahead⟩ := aheadCons.mp ahead
  obtain ⟨x2, ahead⟩ := aheadCons.mp ahead
  obtain ⟨y2, _⟩ := aheadCons.mp ahead
  have whole := spellsDecimal x1 (b := blank) rfl (spellsDecimal y1 (b := blank) rfl
    (spellsDecimal x2 (b := blank) rfl (spellsDecimal y2 (b := newline) rfl more)))
  simpa [line] using whole

theorem spellsLines {tokens : Tokens} {text : List Byte} (ahead : Ahead tokens start (qs.flatMap integers))
    (more : Spells tokens (start + 4 * qs.length) text) :
    Spells tokens start (qs.flatMap line ++ text) := by
  induction qs generalizing start with
  | nil => exact more
  | cons q qs ih =>
    obtain ⟨first, rest⟩ := integersAhead.mp ahead
    have later : start + 4 * (q :: qs).length = start + 4 + 4 * qs.length := by
      rw [List.length_cons]; omega
    rw [later] at more
    rw [List.flatMap_cons, List.append_assoc]
    exact spellsLine first (ih rest more)

theorem aheadFront {xs front : List Token} (plain : ∀ t ∈ xs, Plain t) (begins : front <+: xs) :
    Ahead (ofTokens xs plain).tokens 0 front := by
  intro i t found
  obtain ⟨rest, rfl⟩ := begins
  rw [Nat.zero_add]
  refine (Stream'.Seq.ofList_get? (front ++ rest) i).trans ?_
  rw [List.getElem?_append_left (List.getElem?_eq_some_iff.mp found).1, found]

theorem linesSpell (fit : AllFit qs) : Spells (spelled qs fit).tokens 0 (qs.flatMap line) := by
  have last : (spelled qs fit).tokens.get? (0 + 4 * qs.length) = none := by
    rw [Nat.zero_add, ← Readings.integersLength]
    simp [spelled, ofTokens]
  have whole := spellsLines (aheadFront (integersPlain fit) List.prefix_rfl)
    (.ends (List.forall_mem_nil (space ·)) last)
  rwa [List.append_nil] at whole

theorem inputsSame {board : Board} {player : Byte} {qs more : List Coordinates} {t u : Turn}
    (returns : makeMove board player qs = .ok (some t)) (last : t.rest = [])
    (returns' : makeMove board player (qs ++ more) = .ok (some u)) (last' : u.rest = []) :
    more = [] ∧ u = t := by
  rw [Replay.makeMoveMore returns more, last, List.nil_append] at returns'
  obtain rfl := Option.some.inj (Except.ok.inj returns')
  have none : more = [] := last'
  exact ⟨none, by rw [none, ← last]⟩

/- Induction on the shorter game: the first moves agree, as one player's inputs begin the
other's. -/
theorem gamesPrefix {game last last' : Board × Client} {done' : List Move}
    (steps : Steps (centralised randNum) game done last) (all : ∀ m ∈ done, m.turn.rest = [])
    (steps' : Steps (centralised randNum) game done' last') (all' : ∀ m ∈ done', m.turn.rest = [])
    (within : ∀ c, inputsOf c done <+: inputsOf c done') : done <+: done' := by
  induction steps generalizing done' with
  | nil => exact List.nil_prefix
  | @cons game m next rest last first later ih =>
    obtain ⟨client, before, returns, rfl⟩ := first
    obtain ⟨mine, others⟩ := List.forall_mem_cons.mp all
    have begins := within m.client
    cases steps' with
    | nil =>
      have none : m.inputs = [] := by simpa [inputsOf] using (List.append_eq_nil_iff.mp
        (List.prefix_nil.mp begins)).1
      rw [none] at returns
      cases returns
    | @cons _ m' _ rest' _ first' later' =>
      obtain ⟨client', before', returns', rfl⟩ := first'
      obtain ⟨mine', others'⟩ := List.forall_mem_cons.mp all'
      obtain ⟨player, shown, inputs, turn⟩ := m
      obtain ⟨player', shown', inputs', turn'⟩ := m'
      obtain rfl : player = player' := client.trans client'.symm
      obtain rfl : shown = shown' := before.trans before'.symm
      dsimp only at returns returns' mine mine'
      have same : inputs = inputs' ∧ turn = turn' := by
        simp only [inputsOf, List.flatMap_cons, if_pos] at begins
        rcases List.prefix_or_prefix_of_prefix ((List.prefix_append ..).trans begins)
          (List.prefix_append inputs' _) with ⟨more, rfl⟩ | ⟨more, rfl⟩
        · obtain ⟨rfl, rfl⟩ := inputsSame returns mine returns' mine'
          exact ⟨by simp, rfl⟩
        · obtain ⟨rfl, rfl⟩ := inputsSame returns' mine' returns mine
          exact ⟨by simp, rfl⟩
      obtain ⟨rfl, rfl⟩ := same
      refine List.cons_prefix_cons.mpr ⟨rfl, ih others later' others' fun c => ?_⟩
      have front := within c
      rw [inputsOf, inputsOf, List.flatMap_cons, List.flatMap_cons] at front
      exact (List.prefix_append_right_inj _).mp front

theorem integersPrefix {whole : List Coordinates}
    (begins : whole.flatMap integers <+: qs.flatMap integers) : whole <+: qs := by
  induction whole generalizing qs with
  | nil => exact List.nil_prefix
  | cons q whole ih =>
    cases qs with
    | nil => simp [integers] at begins
    | cons q' qs =>
      simp only [List.flatMap_cons, integers, List.cons_append, List.nil_append,
        List.cons_prefix_cons, Token.integer.injEq] at begins
      obtain ⟨x1, y1, x2, y2, more⟩ := begins
      obtain ⟨a, b, c, d⟩ := q
      obtain ⟨a', b', c', d'⟩ := q'
      dsimp only at x1 y1 x2 y2
      subst x1 y1 x2 y2
      exact List.cons_prefix_cons.mpr ⟨rfl, ih more⟩

theorem typedLines {labels : List (Session.Action × List Move)} {k : Keyboard.State} {c : Client}
    (fit : ∀ c, AllFit (inputsOf c done))
    (run : Run (keyboard (fun c => spelled (inputsOf c done) (fit c)) randNum) labels k)
    (short : (Replay.typedBy c labels).length ≤ (inputsOf c done).length) :
    Replay.typedBy c labels <+: inputsOf c done := by
  obtain ⟨whole, stale, split, _⟩ := Keyboard.typedSplit run c
  have front : whole <+: inputsOf c done := by
    refine integersPrefix (List.prefix_iff_getElem?.mpr fun i inside => ?_)
    have there := split.ahead i _ (List.getElem?_eq_getElem inside)
    simpa [spelled, ofTokens] using there
  have none : stale = [] := by
    by_contra some'
    obtain ⟨gap, near⟩ := split.gap some'
    have size := congrArg List.length split.values
    rw [List.length_append] at size
    have more := List.length_pos_iff.mpr some'
    have long := Readings.integersLength (inputsOf c done)
    have inside : k.position c < ((inputsOf c done).flatMap integers).length := by omega
    obtain ⟨q, member, typed⟩ := List.mem_flatMap.mp (List.getElem_mem inside)
    obtain ⟨z, _, number⟩ := List.mem_map.mp (show _ ∈ (numbers q).map Token.integer from typed)
    refine gap z ?_
    simp [spelled, ofTokens, number]
  rw [split.values, none, List.append_nil]
  exact front

theorem linesRun {game : Board × Client} (run : Run (centralised randNum) done game)
    (last : ∀ m ∈ done, m.turn.rest = []) (fit : ∀ c, AllFit (inputsOf c done)) :
    ∃ labels k, Run (keyboard (fun c => spelled (inputsOf c done) (fit c)) randNum) labels k ∧
      Session.moves labels = done := by
  have reads (c : Client) : ∃ stop, Reads (spelled (inputsOf c done) (fit c)).tokens
      (callsOf c done) stop := by
    refine ⟨_, readsWhole ?_⟩
    rw [Keyboard.callsFlatten]
    exact aheadFront (integersPlain (fit c)) List.prefix_rfl
  choose stops reads using reads
  obtain ⟨labels, k, run', made, _⟩ := Keyboard.keyboardRealised run last stops reads
  exact ⟨labels, k, run', made⟩

def opening : Client → List Coordinates
  | .one => [⟨3,2,4,3⟩]
  | .two => [⟨6,1,9,9⟩,⟨6,1,5,2⟩]

end Lines

structure State where
  net : Session.State
  stdin : Client → List Byte
  vars : Client → Coordinates

def act (stack : Stack) (s : State) (a : Session.Action) : Option (List Move × State) := do
  let (made,net) ← Session.act s.net a
  match a with
  | .types c q =>
    let vars := current (s.net.klient c) stack.vars (s.vars c)
    let (v,rest) := scanfBytes conversions vars (s.stdin c)
    if q = v then
      some (made,{
        net := net
        stdin := Function.update s.stdin c rest
        vars := Function.update s.vars c (afterwards (s.net.klient c) v)})
    else none
  | _ => some (made,{s with net := net})

def typing (texts : Client → List Byte) (randNum : Nat) : Machine State (Session.Action × List Move) where
  start s := Session.Connected randNum s.net ∧ s.stdin = texts
  step s label t := ∃ stack, act stack s label.1 = some (label.2,t)

section Traces
variable {texts : Client → List Byte} {keys : Client → Input} {randNum : Nat} {s t : State}
  {k : Keyboard.State} {a : Session.Action} {made : List Move}
  {labels : List (Session.Action × List Move)}

structure Same (keys : Client → Input) (s : State) (k : Keyboard.State) : Prop where
  net : s.net = k.net
  vars : s.vars = k.vars
  unread : ∀ c, Spells (keys c).tokens (k.position c) (s.stdin c)

theorem actSame (same : Same keys s k) (stack : Stack) (a : Session.Action) :
    Option.Rel (fun x y => x.1 = y.1 ∧ Same keys x.2 y.2) (act stack s a)
      (Keyboard.act keys stack k a) := by
  obtain ⟨net, vars, unread⟩ := same
  unfold act Keyboard.act
  rw [net, vars]
  cases Session.act k.net a with
  | none => exact .none
  | some next =>
    cases a with
    | types c q =>
      have reads := scanfSpells (unread c) conversions (current (k.net.klient c) stack.vars (k.vars c))
      rw [← readCoordinates] at reads
      simp only [Option.bind_eq_bind, Option.bind_some]
      generalize readCoordinates (keys c).tokens (current (k.net.klient c) stack.vars (k.vars c))
        (k.position c) = read at reads ⊢
      obtain ⟨value, left⟩ := reads
      rw [value]
      by_cases mine : q = read.1
      · rw [if_pos mine, if_pos mine]
        refine .some ⟨rfl, rfl, rfl, fun d => ?_⟩
        by_cases his : d = c
        · subst his
          simpa using left
        · simpa [his] using unread d
      · rw [if_neg mine, if_neg mine]
        exact .none
    | _ => exact .some ⟨rfl, rfl, rfl, unread⟩

theorem relSome {α β : Type} {r : α → β → Prop} {x : Option α} {y : Option β} (rel : Option.Rel r x y) :
    (∀ a, x = some a → ∃ b, y = some b ∧ r a b) ∧ ∀ b, y = some b → ∃ a, x = some a ∧ r a b := by
  constructor
  · rintro a rfl
    cases rel with
    | some both => exact ⟨_, rfl, both⟩
  · rintro b rfl
    cases rel with
    | some both => exact ⟨_, rfl, both⟩

theorem bytesSimulate (spells : ∀ c, Spells (keys c).tokens 0 (texts c)) :
    Transition.Simulation (typing texts randNum) (keyboard keys randNum)
      (fun _ s k => Same keys s k) (fun l => [l]) where
  start := by
    rintro s ⟨first, rfl⟩
    exact ⟨⟨s.net,fun _ => 0,s.vars⟩, ⟨first, fun _ => rfl⟩, rfl, rfl, spells⟩
  step := by
    rintro labels s ⟨a, made⟩ t k same ⟨stack, happened⟩
    obtain ⟨⟨made', u⟩, next, rfl, after⟩ := (relSome (actSame same stack a)).1 _ happened
    exact ⟨u, Transition.stepsOne ⟨stack, next⟩, after⟩

theorem tokensSimulate (spells : ∀ c, Spells (keys c).tokens 0 (texts c)) :
    Transition.Simulation (keyboard keys randNum) (typing texts randNum)
      (fun _ k s => Same keys s k) (fun l => [l]) where
  start := by
    rintro k ⟨first, zero⟩
    refine ⟨⟨k.net,texts,k.vars⟩, ⟨first, rfl⟩, rfl, rfl, fun c => ?_⟩
    rw [zero c]
    exact spells c
  step := by
    rintro labels k ⟨a, made⟩ u s same ⟨stack, happened⟩
    obtain ⟨⟨made', t⟩, next, rfl, after⟩ := (relSome (actSame same stack a)).2 _ happened
    exact ⟨t, Transition.stepsOne ⟨stack, next⟩, after⟩

theorem bytesRun (spells : ∀ c, Spells (keys c).tokens 0 (texts c)) (run : Run (typing texts randNum) labels s) :
    ∃ k, Run (keyboard keys randNum) labels k ∧ Same keys s k := by
  simpa using Transition.simulatedRun (bytesSimulate spells) run

theorem tokensRun (spells : ∀ c, Spells (keys c).tokens 0 (texts c))
    (run : Run (keyboard keys randNum) labels k) :
    ∃ s, Run (typing texts randNum) labels s ∧ Same keys s k := by
  simpa using Transition.simulatedRun (tokensSimulate spells) run

theorem textsSpell (spells : ∀ c, Spells (keys c).tokens 0 (texts c)) (randNum : Nat)
    (labels : List (Session.Action × List Move)) :
    (∀ s, Run (typing texts randNum) labels s →
      ∃ k, Run (keyboard keys randNum) labels k ∧ Same keys s k) ∧
    ∀ k, Run (keyboard keys randNum) labels k →
      ∃ s, Run (typing texts randNum) labels s ∧ Same keys s k :=
  ⟨fun _ run => bytesRun spells run, fun _ run => tokensRun spells run⟩

def wordText : Client → List Byte
  | .one => line ⟨3,2,4,3⟩ ++ Texts.utf8 "ok"
  | .two => line ⟨6,1,5,2⟩

theorem wordSpells (c : Client) : Spells (Keyboard.wordKeys c).tokens 0 (wordText c) := by
  cases c with
  | one =>
    have word : Spells (Keyboard.wordKeys .one).tokens 4 ([] ++ Texts.utf8 "ok" ++ []) :=
      .word [] (by simp) rfl
    exact spellsLine (aheadFront _ (List.prefix_append _ _)) word
  | two =>
    have last : Spells (Keyboard.wordKeys .two).tokens 4 [] := .ends (by simp) rfl
    have whole := spellsLine (aheadFront (Keyboard.wordPlain .two) List.prefix_rfl) last
    rwa [List.append_nil] at whole

theorem textsSpellWord : ∃ labels k s, Run (keyboard Keyboard.wordKeys 0) labels k ∧
    Run (typing wordText 0) labels s ∧
    (Session.moves labels).map Move.inputs = [[⟨3,2,4,3⟩],[⟨6,1,5,2⟩],[⟨3,4,4,5⟩]] ∧
    Same Keyboard.wordKeys s k := by
  obtain ⟨labels, k, run, inputs⟩ := Keyboard.wordReads
  obtain ⟨s, typed, same⟩ := (textsSpell wordSpells 0 labels).2 k run
  exact ⟨labels, k, s, run, typed, inputs, same⟩

end Traces

section Games
variable {randNum : Nat} {done : List Move}

theorem inputsFit (fit : ∀ m ∈ done, AllFit m.inputs) (c : Client) : AllFit (inputsOf c done) := by
  intro q member
  obtain ⟨m, inside, typed⟩ := List.mem_flatMap.mp member
  split at typed
  · exact fit m inside q typed
  · cases typed

theorem linesPlay {game : Board × Client} (run : Run (centralised randNum) done game)
    (last : ∀ m ∈ done, m.turn.rest = []) (fit : ∀ m ∈ done, AllFit m.inputs) :
    (∃ labels s, Run (typing (fun c => (inputsOf c done).flatMap line) randNum) labels s ∧
      Session.moves labels = done) ∧
    ∀ labels s, Run (typing (fun c => (inputsOf c done).flatMap line) randNum) labels s →
      (∀ c, (Replay.typedBy c labels).length ≤ (inputsOf c done).length) →
      Session.moves labels <+: done := by
  have fits (c : Client) : AllFit (inputsOf c done) := inputsFit fit c
  have spells (c : Client) := linesSpell (fits c)
  constructor
  · obtain ⟨labels, k, run', made⟩ := linesRun run last fits
    obtain ⟨s, typed, _⟩ := tokensRun spells run'
    exact ⟨labels, s, typed, made⟩
  · intro labels s typed short
    obtain ⟨k, run', _⟩ := bytesRun spells typed
    have account := Replay.accountRun (Keyboard.netRun run')
    obtain ⟨place, game', _, _⟩ := Token.reachableHolds (Keyboard.netRun run')
    refine gamesPrefix (Replay.centralisedSteps game') account.last (Replay.centralisedSteps run) last
      fun c => ?_
    have front := typedLines fits run' (short c)
    rw [account.typed c] at front
    exact (List.prefix_append ..).trans front

theorem linesPlayOpening :
    (∃ labels s, Run (typing (fun c => (inputsOf c (replay 0 opening)).flatMap line) 0) labels s ∧
      Session.moves labels = replay 0 opening) ∧
    ∀ labels s, Run (typing (fun c => (inputsOf c (replay 0 opening)).flatMap line) 0) labels s →
      (∀ c, (Replay.typedBy c labels).length ≤ (inputsOf c (replay 0 opening)).length) →
      Session.moves labels <+: replay 0 opening := by
  obtain ⟨⟨game, run⟩, last, _⟩ := Replay.replayRun 0 opening
  refine linesPlay run last ?_
  unfold AllFit
  decide +kernel

end Games
end Warcaby.Typing
