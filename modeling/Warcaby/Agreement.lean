import Warcaby.Earlier
import Warcaby.Outcome

/-! On boards of men only the current `make_move` and the earlier one go through their
checks side by side: they reject the same quadruples and accept the same one, and
their boards differ by a crown, if the man landed on its last row. -/
namespace Warcaby.Agreement
open Grid (Inside get write getWrite)
open MakeMove (Coordinates OutOfRange promote manBranch)
open Outcome
open Rulebook (square Inputs ReturnsAt)
open Transition (Run)

def MenOnly (board : Board) : Prop :=
  ∀ i j, board i j = blank ∨ board i j = charX ∨ board i j = charO
instance (board) : Decidable (MenOnly board) := by unfold MenOnly; infer_instance

def crownedAt (old : Board) (p : Colour) (x y : Int) : Board :=
  if x = p.lastRow then write old x y p.king else old

section Iteration
variable {board b : Board} {p : Colour} {v : Coordinates}

inductive SamePass (board : Board) (p : Colour) (v : Coordinates) :
    MakeMove.Pass → Earlier.Pass → Prop where
  | rejects (vars : Coordinates) (notice : MakeMove.Notice) (notice' : Earlier.Notice) :
      SamePass board p v (MakeMove.rejected vars board notice) (Earlier.rejected vars board notice')
  | accepts (old : Board) (landed : get old v.x2 v.y2 = p.man) :
      SamePass board p v (MakeMove.accepted v (crownedAt old p v.x2 v.y2)) (Earlier.accepted v old)

theorem otherRow {x y r c : Int} {value : Byte} (stored : store board x y value = .ok b)
    (apart : r ≠ x) : get b r c = get board r c := by
  obtain ⟨inside, rfl⟩ := storeOk stored
  rw [getWrite _ inside, if_neg (fun same => apart same.1)]

theorem promoteMan (inside : Inside 8 8 v.x2 v.y2) (b : Board) :
    promote b p.man v = .ok (crownedAt b p v.x2 v.y2) := by
  unfold promote crownedAt
  cases p with
  | x =>
    by_cases last : v.x2 = boardSize - 1
    · simp [Colour.man, Colour.king, Colour.lastRow, last, storeInside (last ▸ inside)]
    · simp [Colour.man, Colour.lastRow, last, charX, charO]
  | o =>
    by_cases last : v.x2 = 0
    · simp [Colour.man, Colour.king, Colour.lastRow, last, charX, charO, storeInside (last ▸ inside)]
    · simp [Colour.man, Colour.lastRow, last, charX, charO]

-- The current version crowns where the earlier one is done.
theorem crownAgrees (inside : Inside 8 8 v.x2 v.y2) (landed : get b v.x2 v.y2 = p.man) :
    Related (SamePass board p v)
      (promote b p.man v >>= fun crowned => .ok (MakeMove.accepted v crowned))
      (.ok (Earlier.accepted v b) : Checked Earlier.Pass) := by
  rw [promoteMan inside]
  exact .ok (.accepts b landed)

theorem rejectAgrees (vars : Coordinates) (notice : MakeMove.Notice) (notice' : Earlier.Notice) :
    Related (SamePass board p v) (.ok (MakeMove.rejected vars board notice) : Checked MakeMove.Pass)
      (.ok (Earlier.rejected vars board notice')) :=
  .ok (.rejects vars notice notice')

theorem manAgrees (board : Board) (p : Colour) (v : Coordinates) {dx dy : Int}
    (rows : dx = (v.x2 - v.x1).natAbs) :
    Related (SamePass board p v) (manBranch board p.man v dx dy)
      (if (p.man = charX ∧ v.x2 ≤ v.x1) ∨ (p.man = charO ∧ v.x2 ≥ v.x1) then
        .ok (Earlier.rejected v board .wrongDirection)
      else Earlier.jumpOrStep board p.man v dx dy) := by
  unfold manBranch Earlier.jumpOrStep
  refine relatedIte Iff.rfl (fun _ => rejectAgrees _ _ _) (fun _ => ?_)
  refine relatedIte Iff.rfl (fun step => ?_) (fun _ => relatedIte Iff.rfl (fun jump => ?_)
    (fun _ => rejectAgrees _ _ _))
  · refine relatedBind _ (fun moved placed => relatedBind _ (fun cleared left => ?_))
    obtain ⟨target, rfl⟩ := storeOk placed
    refine crownAgrees target ?_
    rw [otherRow left (by omega), getWrite _ target, if_pos ⟨rfl, rfl⟩]
  · refine relatedBind _ (fun middle _ => relatedIte Iff.rfl (fun _ => ?_)
      (fun _ => rejectAgrees _ _ _))
    refine relatedBind _ (fun moved placed => relatedBind _ (fun cleared left =>
      relatedBind _ (fun captured removed => ?_)))
    obtain ⟨target, rfl⟩ := storeOk placed
    have source := (storeOk left).1
    have apart : v.x2 ≠ (v.x1 + v.x2).tdiv 2 := by
      rw [Int.tdiv_eq_ediv_of_nonneg (by unfold Inside at source target; omega)]
      omega
    refine crownAgrees target ?_
    rw [otherRow removed apart, otherRow left (by omega), getWrite _ target, if_pos ⟨rfl, rfl⟩]

theorem ownManOnly (men : MenOnly board) {x y : Int} {piece : Byte}
    (loaded : load board x y = .ok piece) :
    (piece ≠ p.man ∧ piece ≠ charD ∧ piece ≠ charQ) ↔ piece ≠ p.man := by
  obtain ⟨inside, rfl⟩ := loadOk loaded
  obtain ⟨i, j, rfl, rfl⟩ := Grid.insideIndices inside
  rw [Grid.getCell]
  constructor
  · exact fun foreign => foreign.1
  · intro foreign
    rcases men i j with cell | cell | cell <;> rw [cell] at foreign ⊢ <;>
      exact ⟨foreign, by decide, by decide⟩

theorem movePieceAgrees (men : MenOnly board) (p : Colour) (v : Coordinates) :
    Related (SamePass board p v) (MakeMove.movePiece board p.man v)
      (Earlier.movePiece board p.man v) := by
  unfold MakeMove.movePiece Earlier.movePiece
  refine relatedBind _ (fun piece loaded => ?_)
  refine relatedIte (ownManOnly men loaded) (fun _ => rejectAgrees _ _ _) (fun own => ?_)
  refine relatedBind _ (fun target _ => relatedIte Iff.rfl (fun _ => rejectAgrees _ _ _)
    (fun _ => ?_))
  have man : piece = p.man := by
    by_contra foreign
    exact own ((ownManOnly men loaded).mpr foreign)
  have dispatched : piece = charX ∨ piece = charO := by
    rw [man]
    exact p.manLetter
  dsimp only
  rw [if_pos dispatched]
  exact manAgrees board p v rfl

theorem passAgrees (men : MenOnly board) (p : Colour) (q : Coordinates) :
    Related (SamePass board p ⟨q.x1 - 1,q.y1 - 1,q.x2 - 1,q.y2 - 1⟩)
      (MakeMove.pass board p.man q) (Earlier.pass board p.man q) := by
  unfold MakeMove.pass Earlier.pass
  exact relatedIte Iff.rfl (fun _ => rejectAgrees _ _ _) (fun _ => movePieceAgrees men p _)

end Iteration

section Calls
variable {board : Board} {p : Colour} {inputs : Inputs} {k : Nat}
  {t : MakeMove.Turn} {u : Earlier.Turn}

structure SameTurn (p : Colour) (t : MakeMove.Turn) (u : Earlier.Turn) : Prop where
  typed : t.typed = u.typed
  landed : square u.board u.typed.x2 u.typed.y2 = p.man
  board : t.board = crownedAt u.board p (u.typed.x2 - 1) (u.typed.y2 - 1)

theorem makeMoveAgrees (men : MenOnly board) (p : Colour) (qs : List Coordinates) :
    Related (Option.Rel (SameTurn p)) (MakeMove.makeMove board p.man qs)
      (Earlier.makeMove board p.man qs) := by
  induction qs with
  | nil => exact .ok .none
  | cons q rest ih =>
    refine relatedBoth (passAgrees men p q) (fun r s same => ?_)
    cases same with
    | accepts old landed => exact .ok (.some ⟨rfl, landed, rfl⟩)
    | rejects vars notice notice' =>
      -- neither board has changed
      refine relatedBoth ih (fun later later' same => .ok ?_)
      cases same with
      | none => exact .none
      | some same => exact .some ⟨same.typed, same.landed, same.board⟩

theorem waitsAlike (men : MenOnly board) {qs : List Coordinates} :
    MakeMove.makeMove board p.man qs = .ok none ↔ Earlier.makeMove board p.man qs = .ok none := by
  have agrees := makeMoveAgrees men p qs
  constructor
  · intro waits
    rw [waits] at agrees
    obtain ⟨_, waits', waiting⟩ := relatedLeft agrees
    cases waiting
    exact waits'
  · intro waits
    rw [waits] at agrees
    obtain ⟨_, waits', waiting⟩ := relatedRight agrees
    cases waiting
    exact waits'

theorem stopsEarlier (men : MenOnly board) {qs : List Coordinates}
    (stops : MakeMove.makeMove board p.man qs = .ok (some t)) :
    ∃ u, Earlier.makeMove board p.man qs = .ok (some u) ∧ SameTurn p t u := by
  have agrees := makeMoveAgrees men p qs
  rw [stops] at agrees
  obtain ⟨_, stops', stopping⟩ := relatedLeft agrees
  cases stopping with
  | some same => exact ⟨_, stops', same⟩

theorem stopsCurrent (men : MenOnly board) {qs : List Coordinates}
    (stops : Earlier.makeMove board p.man qs = .ok (some u)) :
    ∃ t, MakeMove.makeMove board p.man qs = .ok (some t) ∧ SameTurn p t u := by
  have agrees := makeMoveAgrees men p qs
  rw [stops] at agrees
  obtain ⟨_, stops', stopping⟩ := relatedRight agrees
  cases stopping with
  | some same => exact ⟨_, stops', same⟩

theorem returnsEarlier (men : MenOnly board) (returns : ReturnsAt board p.man inputs k t) :
    ∃ u, Earlier.ReturnsAt board p.man inputs k u ∧ SameTurn p t u := by
  obtain ⟨u, stops, same⟩ := stopsEarlier men returns.returns
  exact ⟨u, ⟨(waitsAlike men).mp returns.waits, stops⟩, same⟩

theorem returnsCurrent (men : MenOnly board) (returns : Earlier.ReturnsAt board p.man inputs k u) :
    ∃ t, ReturnsAt board p.man inputs k t ∧ SameTurn p t u := by
  obtain ⟨t, stops, same⟩ := stopsCurrent men returns.returns
  exact ⟨t, ⟨(waitsAlike men).mpr returns.waits, stops⟩, same⟩

end Calls

section Games
variable {board : Board} {p : Colour}

def Lands (p : Colour) (q : Coordinates) : Prop := q.x2 - 1 = p.lastRow
instance (p q) : Decidable (Lands p q) := by unfold Lands; infer_instance

structure SameMove (call : Play.Call) (earlier : Earlier.Call) : Prop where
  colour : call.colour = earlier.colour
  before : call.before = earlier.before
  inputs : call.inputs = earlier.inputs
  typed : call.turn.typed = earlier.turn.typed
  board : call.turn.board = earlier.turn.board

def SameMen (current earlier : Board) : Prop := current = earlier ∧ MenOnly current

theorem initialMen : MenOnly initializeBoard := by decide

theorem uncrowned (old : Board) {q : Coordinates} (flat : ¬ Lands p q) (y : Int) :
    crownedAt old p (q.x2 - 1) y = old := if_neg flat

theorem stillMen (men : MenOnly board) {qs : List Coordinates} {t : MakeMove.Turn}
    (returns : MakeMove.makeMove board p.man qs = .ok (some t)) (flat : ¬ Lands p t.typed) :
    MenOnly t.board := by
  obtain ⟨m, returned⟩ := Turn.makeMoveReturned returns
  obtain ⟨r, s, _, _, here⟩ := Play.moverCell returned.legal
  intro i j
  rw [returned.result]
  rcases Rule.resultCases m board i j with empty | ⟨_, _, landed⟩ | kept
  · exact .inl empty
  · have row : m.row m.distance ≠ p.lastRow := by
      rw [returned.typed] at flat
      simp only [Lands, Rule.Ply.typed] at flat
      omega
    have same : Rule.crowned (m.cell board 0) (m.row m.distance) = m.cell board 0 := by
      rcases returned.legal.mover with ⟨c, player, man, _⟩ | king
      · have colour : c = p := (Colour.manUnique player).symm
        rw [man, colour, Rule.crownedMan, if_neg row]
      · exact Rule.crownedKing king _
    rw [landed, same, here]
    exact men r s
  · rw [kept]
    exact men i j

theorem sameMove (men : MenOnly board) {qs : List Coordinates} {t : MakeMove.Turn}
    {u : Earlier.Turn} (returns : MakeMove.makeMove board p.man qs = .ok (some t))
    (same : SameTurn p t u) (flat : ¬ Lands p t.typed) :
    SameMove ⟨p,board,qs,t⟩ ⟨p,board,qs,u⟩ ∧ SameMen t.board u.board := by
  have equal : t.board = u.board := same.board.trans (uncrowned u.board (same.typed ▸ flat) _)
  exact ⟨⟨rfl, rfl, rfl, same.typed, equal⟩, equal, stillMen men returns flat⟩

theorem earlierGame {calls : List Play.Call} (run : Run Play.play calls board)
    (flat : ∀ c ∈ calls, ¬ Lands c.colour c.turn.typed) :
    ∃ earlier, Run Earlier.play earlier board ∧ List.Forall₂ SameMove calls earlier := by
  have both : ∃ earlier t, Run Earlier.play earlier t ∧ List.Forall₂ SameMove calls earlier ∧
      SameMen board t := by
    refine Transition.matchedRun ?_ ?_ run flat
    · exact fun s first => ⟨s, first, rfl, (show s = initializeBoard from first) ▸ initialMen⟩
    · rintro s t c s' ⟨rfl, men⟩ flat ⟨rfl, returns, rfl⟩
      obtain ⟨u, returns', same⟩ := stopsEarlier men returns
      obtain ⟨move, boards⟩ := sameMove men returns same flat
      exact ⟨⟨c.colour,c.before,c.inputs,u⟩, _, ⟨rfl, returns', rfl⟩, move, boards⟩
  obtain ⟨earlier, _, other, pairs, rfl, _⟩ := both
  exact ⟨earlier, other, pairs⟩

theorem currentGame {earlier : List Earlier.Call} (run : Run Earlier.play earlier board)
    (flat : ∀ c ∈ earlier, ¬ Lands c.colour c.turn.typed) :
    ∃ calls, Run Play.play calls board ∧ List.Forall₂ SameMove calls earlier := by
  have both : ∃ calls t, Run Play.play calls t ∧ List.Forall₂ (flip SameMove) earlier calls ∧
      flip SameMen board t := by
    refine Transition.matchedRun ?_ ?_ run flat
    · exact fun s first => ⟨s, first, rfl, (show s = initializeBoard from first) ▸ initialMen⟩
    · rintro s t c s' ⟨rfl, men⟩ flat ⟨rfl, returns, rfl⟩
      obtain ⟨t, returns', same⟩ := stopsCurrent men returns
      obtain ⟨move, boards⟩ := sameMove men returns' same (same.typed.symm ▸ flat)
      exact ⟨⟨c.colour,c.before,c.inputs,t⟩, _, ⟨rfl, returns', rfl⟩, move, boards⟩
  obtain ⟨calls, _, other, pairs, rfl, _⟩ := both
  exact ⟨calls, other, pairs.flip⟩

theorem agreement :
    (∀ board : Board, MenOnly board → ∀ (p : Colour) (inputs : Inputs) (k : Nat),
      ((∃ t, ReturnsAt board p.man inputs k t) ↔
        ∃ u, Earlier.ReturnsAt board p.man inputs k u) ∧
      ∀ t u, ReturnsAt board p.man inputs k t → Earlier.ReturnsAt board p.man inputs k u →
        SameTurn p t u) ∧
    (∀ (calls : List Play.Call) (board : Board), Run Play.play calls board →
      (∀ c ∈ calls, ¬ Lands c.colour c.turn.typed) →
      ∃ earlier, Run Earlier.play earlier board ∧ List.Forall₂ SameMove calls earlier) ∧
    ∀ (earlier : List Earlier.Call) (board : Board), Run Earlier.play earlier board →
      (∀ c ∈ earlier, ¬ Lands c.colour c.turn.typed) →
      ∃ calls, Run Play.play calls board ∧ List.Forall₂ SameMove calls earlier := by
  refine ⟨fun board men p inputs k => ⟨⟨?_, ?_⟩, fun t u current earlier => ?_⟩,
    fun calls board => earlierGame, fun earlier board => currentGame⟩
  · rintro ⟨t, returns⟩
    obtain ⟨u, returns', _⟩ := returnsEarlier men returns
    exact ⟨u, returns'⟩
  · rintro ⟨u, returns⟩
    obtain ⟨t, returns', _⟩ := returnsCurrent men returns
    exact ⟨t, returns'⟩
  · obtain ⟨u', earlier', same⟩ := returnsEarlier men current
    have unique : u = u' := by
      have both := earlier.returns.symm.trans earlier'.returns
      simpa using both
    exact unique ▸ same

end Games

def openingCall : Earlier.Call where
  colour := .x
  before := initializeBoard
  inputs := Play.openingCall.inputs
  turn := ⟨Play.openingCall.turn.board,⟨3,2,4,3⟩,[],[.prompt,.incorrect,.prompt,.handOver]⟩

theorem openingRun : Run Earlier.play [openingCall] openingCall.turn.board :=
  .step (.start rfl) ⟨rfl, rfl, rfl⟩

theorem agreementOpening :
    SameTurn .x Play.openingCall.turn openingCall.turn ∧
    (∃ earlier, Run Earlier.play earlier Play.openingCall.turn.board ∧
      List.Forall₂ SameMove [Play.openingCall] earlier) ∧
    ∃ calls, Run Play.play calls openingCall.turn.board ∧
      List.Forall₂ SameMove calls [openingCall] := by
  have alike := (agreement.1 initializeBoard initialMen .x
    (Stream'.Seq.ofList Play.openingCall.inputs) 1).2
  exact ⟨alike _ _ ⟨rfl, rfl⟩ ⟨rfl, rfl⟩, agreement.2.1 _ _ Play.openingRun (by decide),
    agreement.2.2 _ _ openingRun (by decide)⟩

end Warcaby.Agreement
