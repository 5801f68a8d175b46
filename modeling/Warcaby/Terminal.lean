import Warcaby.Iteration
import Warcaby.Printing
import Warcaby.Session

/-! What the three programs print, piece by piece, as a machine that also keeps the three
outputs. The pieces can be told from the bytes. -/
namespace Warcaby.Terminal
open Texts Printing MakeMove Turn Session Outcome
open Iteration (Attempt attempts printed)
open Server (Client)
open Transition (Machine Run)

-- `PORT`
abbrev port : Nat := 12345

/- `SERVER_IP`, as `inet_ntoa` writes addresses: digits and dots. -/
structure Address where
  text : List Byte
  dotted : ∀ b ∈ text, b = 46 ∨ 48 ≤ b ∧ b ≤ 57

inductive Item where
  | connected (address : Address)
  | colour (playerChar : Byte)
  | board (shown : Board)
  | notice (n : Notice)
  | received (bytes : Nat) (c : Client)

def clientNumber : Client → Byte
  | .one => 49
  | .two => 50

def Item.text : Item → List Byte
  | connected address =>
    utf8 "Connected to server at " ++ address.text ++ utf8 ":" ++ decimal port ++ newline
  | colour playerChar => utf8 "You are player: " ++ [playerChar] ++ newline
  | board shown => printBoard shown
  | notice n => utf8 n.text
  | received bytes c =>
    utf8 "Received " ++ decimal bytes ++ utf8 " bytes from client " ++ [clientNumber c] ++ newline

def notices (output : List Notice) : List Item := output.map .notice

/- What `make_move` prints on one more quadruple, after the prompt for it. -/
def answer (k : Klient.State) (q : Coordinates) : List Notice :=
  match attempts k.board k.playerChar (typedSoFar k ++ [q]) with
  | .ok log => (log.getLast?.map (fun a => a.pass.output.tail)).getD []
  | .error _ => []

def receivedPrints (k next : Klient.State) : List Item :=
  match k.phase, next.phase with
  | .colour, _ => [.colour next.playerChar]
  | _, .moving _ => [.board next.board,.notice .prompt]
  | _, _ => []

def scannedPrints (k next : Klient.State) (q : Coordinates) : List Item :=
  notices (answer k q) ++
    match next.phase with
    | .moving _ => [.notice .prompt]
    | .sending => [.board next.board]
    | _ => []

def klientPrints (s t : State) (c : Client) : Action → List Item
  | .receives d => if d = c then receivedPrints (s.klient c) (t.klient c) else []
  | .types d q => if d = c then scannedPrints (s.klient c) (t.klient c) q else []
  | _ => []

/- `play_game` prints the board before its loop, and every board that it has stored. -/
def serverPrints (s t : State) : Action → List Item
  | .serverSends => if s.server.phase = .sendingColour .two then [.board t.server.board] else []
  | .serverReceives =>
    match s.server.phase with
    | .receiving c =>
      .received ((s.toServer c).length - (t.toServer c).length) c ::
        (match t.server.phase with
        | .sending _ => [.board t.server.board]
        | _ => [])
    | _ => []
  | _ => []

structure Watched where
  session : State
  console : List Item
  screen : Client → List Item

/- Both clients have said what they are connected to before anything is sent. -/
def watched (address : Client → Address) (randNum : Nat) : Machine Watched (Action × List Move) where
  start w := Connected randNum w.session ∧ w.console = [] ∧ ∀ c, w.screen c = [.connected (address c)]
  step w label u := act w.session label.1 = some (label.2,u.session) ∧
    u.console = w.console ++ serverPrints w.session u.session label.1 ∧
    ∀ c, u.screen c = w.screen c ++ klientPrints w.session u.session c label.1

theorem sessionRun {address : Client → Address} {randNum : Nat} {labels : List (Action × List Move)}
    {w : Watched} (run : Run (watched address randNum) labels w) : Run (distributed randNum) labels w.session := by
  induction run with
  | start first => exact .start first.1
  | step before next ih => exact .step ih next.1

theorem watchedRun {randNum : Nat} {labels : List (Action × List Move)} {s : State}
    (address : Client → Address) (run : Run (distributed randNum) labels s) :
    ∃ w, Run (watched address randNum) labels w ∧ w.session = s := by
  induction run with
  | @start s first =>
    exact ⟨⟨s,[],fun c => [.connected (address c)]⟩, .start ⟨first, rfl, fun _ => rfl⟩, rfl⟩
  | @step labels s a t before next ih =>
    obtain ⟨w, run, rfl⟩ := ih
    exact ⟨⟨t,w.console ++ serverPrints w.session t a.1,
      fun c => w.screen c ++ klientPrints w.session t c a.1⟩, .step run ⟨next, rfl, fun _ => rfl⟩, rfl⟩

section Texts

def Item.lead : Item → List Byte
  | connected _ => utf8 "Co"
  | colour _ => utf8 "Yo"
  | board _ => utf8 "  "
  | notice n => (utf8 n.text).take 2
  | received _ _ => utf8 "Re"

theorem textLead (item : Item) : item.text.take 2 = item.lead := by
  cases item <;> rfl

theorem leadLength (item : Item) : item.lead.length = 2 := by
  cases item with
  | notice n => cases n <;> decide
  | _ => simp only [Item.lead]; decide

theorem leadPrefix {one other : Item} (reads : one.text <+: other.text) : one.lead = other.lead := by
  rw [← textLead, ← textLead]
  refine (reads.take 2).eq_of_length ?_
  rw [textLead, textLead, leadLength, leadLength]

theorem noticePrefix (n m : Notice) (reads : utf8 n.text <+: utf8 m.text) : n = m := by
  revert reads
  cases n <;> cases m <;> decide +kernel

theorem receivedPrefix {n m : Nat} {c d : Client}
    (reads : (Item.received n c).text <+: (Item.received m d).text) : n = m ∧ c = d := by
  have space (k : Nat) : (32 : Byte) ∉ decimal k := fun inside => absurd (decimalDigits inside) (by decide)
  have split : utf8 " bytes from client " = 32 :: utf8 "bytes from client " := by decide
  simp only [Item.text, List.append_assoc, List.prefix_append_right_inj, split, List.cons_append] at reads
  obtain ⟨same, rest⟩ := fieldPrefix (space n) (space m) reads
  rw [List.prefix_append_right_inj] at rest
  refine ⟨decimalUnique same, ?_⟩
  cases c <;> cases d <;> first | rfl | exact absurd rest (by decide)

theorem connectedPrefix {one other : Address}
    (reads : (Item.connected one).text <+: (Item.connected other).text) : one = other := by
  have colon (a : Address) : (58 : Byte) ∉ a.text := fun inside => absurd (a.dotted _ inside) (by decide)
  have split : utf8 ":" = [58] := by decide
  simp only [Item.text, List.append_assoc, List.prefix_append_right_inj, split, List.singleton_append]
    at reads
  obtain ⟨one, _⟩ := one
  obtain ⟨other, _⟩ := other
  obtain ⟨rfl, _⟩ := fieldPrefix (colon _) (colon _) reads
  rfl

theorem textPrefixFree : PrefixFree Item.text := by
  intro one other reads
  have lead := leadPrefix reads
  cases one with
  | connected first =>
    cases other with
    | connected second => rw [connectedPrefix reads]
    | notice n => cases n <;> exact absurd lead (by simp only [Item.lead]; decide)
    | colour | board | received => exact absurd lead (by simp only [Item.lead]; decide)
  | colour first =>
    cases other with
    | colour second =>
      have same := reads.eq_of_length (by simp [Item.text])
      simpa [Item.text] using same
    | notice n => cases n <;> exact absurd lead (by simp only [Item.lead]; decide)
    | connected | board | received => exact absurd lead (by simp only [Item.lead]; decide)
  | board first =>
    cases other with
    | board second =>
      have same : printBoard first = printBoard second :=
        reads.eq_of_length (by simp [Item.text])
      rw [printUnique same]
    | notice n => cases n <;> exact absurd lead (by simp only [Item.lead]; decide)
    | connected | colour | received => exact absurd lead (by simp only [Item.lead]; decide)
  | notice n =>
    cases other with
    | notice m => rw [noticePrefix n m reads]
    | connected | colour | board | received => cases n <;> exact absurd lead (by simp only [Item.lead]; decide)
  | received n c =>
    cases other with
    | received m d =>
      obtain ⟨rfl, rfl⟩ := receivedPrefix reads
      rfl
    | notice m => cases m <;> exact absurd lead (by simp only [Item.lead]; decide)
    | connected | colour | board => exact absurd lead (by simp only [Item.lead]; decide)

theorem textOccupied (item : Item) : item.text ≠ [] := by
  intro none
  have lead := textLead item
  have length := leadLength item
  rw [← lead, none] at length
  cases length

theorem screenUnique {first second : List Item}
    (same : first.flatMap Item.text = second.flatMap Item.text) : first = second :=
  rowUnique textPrefixFree textOccupied same

end Texts

section Calls
variable {board : Board} {player : Byte} {typed : List Coordinates} {q : Coordinates}

def Prompts (r : Pass) : Prop := ∃ rest, r.output = .prompt :: rest

theorem manPrompts (v : Coordinates) (dx dy : Int) : Ends Prompts (manBranch board player v dx dy) := by
  unfold manBranch
  refine endsIte (fun _ => endsOk ⟨_, rfl⟩) (fun _ => endsIte (fun _ => ?_)
    (fun _ => endsIte (fun _ => ?_) (fun _ => endsOk ⟨_, rfl⟩)))
  · exact endsBind _ fun _ _ => endsBind _ fun _ _ => endsBind _ fun _ _ => endsOk ⟨_, rfl⟩
  · refine endsBind _ fun _ _ => endsIte (fun _ => ?_) (fun _ => endsOk ⟨_, rfl⟩)
    exact endsBind _ fun _ _ => endsBind _ fun _ _ => endsBind _ fun _ _ =>
      endsBind _ fun _ _ => endsOk ⟨_, rfl⟩

theorem kingPrompts (piece : Byte) (v : Coordinates) (dx dy : Int) :
    Ends Prompts (kingBranch board piece v dx dy) := by
  unfold kingBranch
  refine endsIte (fun _ => ?_) (fun _ => endsOk ⟨_, rfl⟩)
  refine endsBind _ fun _ _ => endsBind _ fun _ _ => endsBind _ fun _ _ => ?_
  refine endsIte (fun _ => endsOk ⟨_, rfl⟩) (fun _ => endsIte (fun _ => ?_)
    (fun _ => endsOk ⟨_, rfl⟩))
  exact endsBind _ fun _ _ => endsBind _ fun _ _ => endsBind _ fun _ _ => endsOk ⟨_, rfl⟩

theorem passPrompts (board : Board) (player : Byte) (q : Coordinates) :
    Ends Prompts (MakeMove.pass board player q) := by
  unfold MakeMove.pass
  refine endsIte (fun _ => endsOk ⟨_, rfl⟩) (fun _ => ?_)
  unfold movePiece
  refine endsBind _ fun _ _ => endsIte (fun _ => endsOk ⟨_, rfl⟩) (fun _ => endsBind _ fun _ _ => ?_)
  refine endsIte (fun _ => endsOk ⟨_, rfl⟩) (fun _ => endsIte (fun _ => manPrompts _ _ _) (fun _ => ?_))
  exact endsIte (fun _ => kingPrompts _ _ _ _) (fun _ => endsOk ⟨_, rfl⟩)

theorem attemptsMore (waits : makeMove board player typed = .ok none) (q : Coordinates) :
    ∃ log r rest, attempts board player typed = .ok log ∧ r.output = .prompt :: rest ∧
      attempts board player (typed ++ [q]) = .ok (log ++ [⟨board,q,r⟩]) ∧
      ∀ t, makeMove board player (typed ++ [q]) = .ok (some t) →
        t.output = printed (log ++ [⟨board,q,r⟩]) := by
  induction typed with
  | nil =>
    obtain ⟨r, passed⟩ := Iteration.passDefined board player q
    obtain ⟨rest, prompts⟩ := passPrompts board player q r passed
    refine ⟨[], r, rest, rfl, prompts, ?_, fun t returns => ?_⟩
    · simp only [List.nil_append, attempts, passed, okBind]
      split <;> rfl
    · simp only [List.nil_append, makeMove, passed, okBind] at returns
      split at returns
      · cases returns
        simp [printed]
      · cases returns
  | cons p typed ih =>
    have illegal := Rulebook.makeMoveWaits.mp waits
    obtain ⟨r', passed, incorrect, same⟩ := passIllegal (illegal p List.mem_cons_self)
    obtain ⟨log, r, rest, before, prompts, after, output⟩ := ih
      (Rulebook.makeMoveWaits.mpr (fun q member => illegal q (List.mem_cons_of_mem _ member)))
    refine ⟨⟨board,p,r'⟩ :: log, r, rest, ?_, prompts, ?_, fun t returns => ?_⟩
    · simp [attempts, passed, incorrect, same, before]
    · simp [attempts, passed, incorrect, same, after]
    · obtain ⟨out, later⟩ := makeMoveNoFault board player (typed ++ [q])
      cases out with
      | none => simp [makeMove, passed, incorrect, same, later] at returns
      | some u =>
        simp only [List.cons_append, makeMove, passed, incorrect, same, later, okBind,
          Bool.false_eq_true, if_false, Option.map_some] at returns
        cases returns
        simp [printed, output u later]

end Calls

end Warcaby.Terminal
