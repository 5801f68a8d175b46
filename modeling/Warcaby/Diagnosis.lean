import Warcaby.Screen

/-! What a player is told. For every quadruple that is not legal the notices printed
depend on the board and the quadruple alone; they are given here without the scan, and
with them all that a call prints. -/
namespace Warcaby.Diagnosis
open Grid (get)
open MakeMove Rule Turn Rulebook Outcome
open Iteration (Blocks attempts printed)
open Server (Client)
open Session
open Transition (Run)

instance (board c q k) : Decidable (Blocks board c q k) := by unfold Blocks; infer_instance

def kingOf (cell : Byte) : Colour := if cell = charD then .x else .o

def Ahead (p : Colour) (q : Coordinates) : Prop := 0 < (q.x2 - q.x1) * p.forward
instance (p q) : Decidable (Ahead p q) := by unfold Ahead; infer_instance

def Sloped (q : Coordinates) : Prop := (q.x2 - q.x1).natAbs = (q.y2 - q.y1).natAbs
instance (q) : Decidable (Sloped q) := by unfold Sloped; infer_instance

def Stopped (board : Board) (q : Coordinates) : Prop :=
  ∃ k < (q.x2 - q.x1).natAbs, 0 < k ∧ Blocks board (kingOf (square board q.x1 q.y1)) q k
instance (board q) : Decidable (Stopped board q) := by unfold Stopped; infer_instance

def manReason (p : Colour) (q : Coordinates) : Notice :=
  if ¬ Ahead p q then .wrongDirection
  else if (q.x2 - q.x1).natAbs = 2 ∧ (q.y2 - q.y1).natAbs = 2 then .nothingToCapture
  else .incorrect

def kingReasons (board : Board) (q : Coordinates) : List Notice :=
  if ¬ Sloped q then [.handOver]
  else if Stopped board q then [.ownPieceInTheWay,.handOver]
  else [.obstacle]

/- Why a quadruple is refused: the first of these reasons that applies. -/
def reasons (board : Board) (p : Colour) (q : Coordinates) : List Notice :=
  if OutOfRange q then [.noSuchSquare]
  else if square board q.x1 q.y1 ≠ p.man ∧ square board q.x1 q.y1 ≠ charD ∧
      square board q.x1 q.y1 ≠ charQ then [.notYours]
  else if square board q.x2 q.y2 ≠ blank then [.occupied]
  else if square board q.x1 q.y1 = p.man then [manReason p q]
  else kingReasons board q

section Iterations
variable {board : Board} {p : Colour} {q : Coordinates}

def Says (told : List Notice) (r : Pass) : Prop := r.correctMove = false → r.output = .prompt :: told

theorem saysAccepted {told : List Notice} (v : Coordinates) (board : Board) :
    Ends (Says told) (.ok (accepted v board) : Checked Pass) := endsOk nofun

theorem saysRejected {told : List Notice} {notice : Notice} (same : told = [notice])
    (v : Coordinates) (board : Board) : Ends (Says told) (.ok (rejected v board notice) : Checked Pass) :=
  endsOk (fun _ => by rw [same]; rfl)

theorem aheadTyped (p : Colour) (q : Coordinates) :
    ((p.man = charX ∧ q.x2 - 1 ≤ q.x1 - 1) ∨ (p.man = charO ∧ q.x2 - 1 ≥ q.x1 - 1)) ↔ ¬ Ahead p q := by
  cases p <;> simp [Ahead, Colour.man, Colour.forward, charX, charO]

theorem manSays (board : Board) (p : Colour) (q : Coordinates) :
    Ends (Says [manReason p q])
      (manBranch board p.man ⟨q.x1 - 1,q.y1 - 1,q.x2 - 1,q.y2 - 1⟩
        (q.x2 - 1 - (q.x1 - 1)).natAbs (q.y2 - 1 - (q.y1 - 1)).natAbs) := by
  have alongX : q.x2 - 1 - (q.x1 - 1) = q.x2 - q.x1 := by omega
  have alongY : q.y2 - 1 - (q.y1 - 1) = q.y2 - q.y1 := by omega
  unfold manBranch manReason
  simp only [alongX, alongY, aheadTyped]
  refine endsIte (fun back => saysRejected (by rw [if_pos back]) _ _) (fun ahead => ?_)
  rw [if_neg ahead]
  refine endsIte (fun _ => ?_) (fun _ => endsIte (fun two => ?_) (fun other => ?_))
  · exact endsBind _ fun _ _ => endsBind _ fun _ _ => endsBind _ fun _ _ => saysAccepted _ _
  · have both : (q.x2 - q.x1).natAbs = 2 ∧ (q.y2 - q.y1).natAbs = 2 := by omega
    rw [if_pos both]
    refine endsBind _ fun _ _ => endsIte (fun _ => ?_) (fun _ => saysRejected rfl _ _)
    exact endsBind _ fun _ _ => endsBind _ fun _ _ => endsBind _ fun _ _ =>
      endsBind _ fun _ _ => saysAccepted _ _
  · have neither : ¬ ((q.x2 - q.x1).natAbs = 2 ∧ (q.y2 - q.y1).natAbs = 2) := by omega
    rw [if_neg neither]
    exact saysRejected rfl _ _

theorem kingOfKing (c : Colour) : kingOf c.king = c := by cases c <;> rfl

/- The own pieces counted by the scan are the squares a king does not pass over. -/
theorem scanStopped {c : Colour} {s : Scan} (onBoard : OnBoard q)
    (king : square board q.x1 q.y1 = c.king) (empty : square board q.x2 q.y2 = blank)
    (slope : Sloped q)
    (scanned : (List.range' 1 (((q.x2 - q.x1).natAbs : Int) - 1).toNat).foldlM
      (scanCell board c.king ⟨q.x1 - 1,q.y1 - 1,q.x2 - 1,q.y2 - 1⟩
        (q.x2 - q.x1).sign (q.y2 - q.y1).sign) ⟨0,0,none⟩ = .ok s) :
    Stopped board q ↔ 0 < s.ownPieces := by
  rw [← Iteration.scanFalls onBoard king empty slope scanned, Stopped, king, kingOfKing]
  constructor
  · rintro ⟨k, near, positive, blocks⟩
    exact ⟨onBoard, king, empty, .inr ⟨k, positive, near, blocks⟩⟩
  · rintro ⟨_, _, _, apart | ⟨k, positive, near, blocks⟩⟩
    · exact absurd slope apart
    · exact ⟨k, near, positive, blocks⟩

theorem kingSays {c : Colour} (onBoard : OnBoard q) (king : square board q.x1 q.y1 = c.king)
    (empty : square board q.x2 q.y2 = blank) :
    Ends (Says (kingReasons board q))
      (kingBranch board c.king ⟨q.x1 - 1,q.y1 - 1,q.x2 - 1,q.y2 - 1⟩
        (q.x2 - 1 - (q.x1 - 1)).natAbs (q.y2 - 1 - (q.y1 - 1)).natAbs) := by
  have alongX : q.x2 - 1 - (q.x1 - 1) = q.x2 - q.x1 := by omega
  have alongY : q.y2 - 1 - (q.y1 - 1) = q.y2 - q.y1 := by omega
  unfold kingBranch kingReasons
  simp only [alongX, alongY]
  refine endsIte (fun same => ?_) (fun apart => ?_)
  · have slope : Sloped q := Int.ofNat_inj.mp same
    rw [if_neg (not_not.mpr slope)]
    refine endsBind _ (fun dirX dividedX => endsBind _ (fun dirY dividedY =>
      endsBind _ (fun s scanned => ?_)))
    rw [Iteration.divideSign dividedX, Iteration.divideSign dividedY] at scanned
    have stopped := scanStopped onBoard king empty slope scanned
    refine endsIte (fun own => endsOk (fun _ => by rw [if_pos (stopped.mpr own)])) (fun clear => ?_)
    rw [if_neg (fun blocked => clear (stopped.mp blocked))]
    refine endsIte (fun _ => ?_) (fun _ => saysRejected rfl _ _)
    exact endsBind _ fun _ _ => endsBind _ fun _ _ => endsBind _ fun _ _ => saysAccepted _ _
  · have slope : ¬ Sloped q := fun same => apart (Int.ofNat_inj.mpr same)
    rw [if_pos slope]
    exact endsOk (fun _ => rfl)

theorem passSays (board : Board) (p : Colour) (q : Coordinates) :
    Ends (Says (reasons board p q)) (MakeMove.pass board p.man q) := by
  unfold MakeMove.pass reasons
  refine endsIte (fun outside => saysRejected (if_pos outside) _ _) (fun inside => ?_)
  rw [if_neg inside]
  have onBoard : OnBoard q := by
    unfold OutOfRange at inside
    constructor <;> omega
  unfold movePiece
  refine endsBind _ (fun piece loaded => ?_)
  have here : square board q.x1 q.y1 = piece := (loadOk loaded).2.symm
  rw [here]
  refine endsIte (fun foreign => saysRejected (if_pos foreign) _ _) (fun mine => ?_)
  rw [if_neg mine]
  refine endsBind _ (fun cell loaded' => ?_)
  have there : square board q.x2 q.y2 = cell := (loadOk loaded').2.symm
  rw [there]
  refine endsIte (fun occupied => saysRejected (if_pos occupied) _ _) (fun vacant => ?_)
  rw [if_neg vacant]
  by_cases man : piece = p.man
  · rw [if_pos man, if_pos (man ▸ p.manLetter)]
    exact manSays board p q
  · have king : piece = charD ∨ piece = charQ := by
      by_contra other
      exact mine ⟨man, not_or.mp other⟩
    have colour : ∃ c : Colour, piece = c.king := king.elim (fun d => ⟨.x, d⟩) (fun d => ⟨.o, d⟩)
    obtain ⟨c, rfl⟩ := colour
    rw [if_neg man, if_neg c.kingNoMan, if_pos king]
    exact kingSays onBoard here (there.trans (not_not.mp vacant))

theorem passTold (illegal : ¬ LegalMove board p q) :
    ∃ r, MakeMove.pass board p.man q = .ok r ∧ r.correctMove = false ∧ r.board = board ∧
      r.output = .prompt :: reasons board p q := by
  obtain ⟨r, passed, incorrect, same⟩ := passIllegal (illegalMove.mpr illegal)
  exact ⟨r, passed, incorrect, same, passSays board p q r passed incorrect⟩

end Iterations

section Calls
variable {board : Board} {p : Colour} {qs : List Coordinates} {t : MakeMove.Turn}

def told (board : Board) (p : Colour) (qs : List Coordinates) : List Notice :=
  qs.flatMap (fun q => .prompt :: reasons board p q)

theorem waitingTold (illegal : ∀ q ∈ qs, ¬ LegalMove board p q) :
    ∃ log, attempts board p.man qs = .ok log ∧ printed log = told board p qs := by
  induction qs with
  | nil => exact ⟨[], rfl, rfl⟩
  | cons q qs ih =>
    obtain ⟨here, others⟩ := List.forall_mem_cons.mp illegal
    obtain ⟨r, passed, incorrect, same, output⟩ := passTold here
    obtain ⟨log, logged, printed'⟩ := ih others
    refine ⟨⟨board,q,r⟩ :: log, ?_, ?_⟩
    · simp [attempts, passed, incorrect, same, logged]
    · have first : printed (⟨board,q,r⟩ :: log) = r.output ++ printed log := rfl
      rw [first, printed', output]
      rfl

theorem returnedTold {before rest : List Coordinates} {q : Coordinates}
    (illegal : ∀ r ∈ before, ¬ LegalMove board p r) (legal : LegalMove board p q)
    (returns : makeMove board p.man (before ++ q :: rest) = .ok (some t)) :
    t.output = told board p before ++ [.prompt,.handOver] := by
  induction before generalizing t with
  | nil =>
    obtain ⟨m, rfl, ply⟩ := (legalMovePly board p q).mp legal
    simp only [List.nil_append, makeMove, passLegal ply, performed, okBind] at returns
    cases returns
    rfl
  | cons r before ih =>
    obtain ⟨here, others⟩ := List.forall_mem_cons.mp illegal
    obtain ⟨r', passed, incorrect, same, output⟩ := passTold here
    obtain ⟨out, later⟩ := makeMoveNoFault board p.man (before ++ q :: rest)
    cases out with
    | none => simp [makeMove, passed, incorrect, same, later] at returns
    | some u =>
      simp only [List.cons_append, makeMove, passed, incorrect, same, later, okBind,
        Bool.false_eq_true, if_false, Option.map_some] at returns
      cases returns
      simp [told, output, ih others later]

end Calls

section Network
variable {randNum : Nat} {labels : List (Action × List Move)} {s : State} {m : Move} {c : Client}
  {typed : List Coordinates}

theorem moveReturned (run : Run (distributed randNum) labels s) (inside : m ∈ moves labels) :
    makeMove m.before (assigned randNum m.client).man m.inputs = .ok (some m.turn) ∧
      m.turn.rest = [] := by
  obtain ⟨place, run', _, _⟩ := Token.reachableHolds run
  obtain ⟨earlier, later, split⟩ := List.append_of_mem inside
  obtain ⟨_, _, _, _, _, returns, _⟩ := Transition.runSplit run' split
  rw [assignedMan] at returns
  exact ⟨returns, (Replay.accountRun run).last m inside⟩

theorem moveTold (run : Run (distributed randNum) labels s) (inside : m ∈ moves labels) :
    ∃ before q, m.inputs = before ++ [q] ∧
      (∀ r ∈ before, ¬ LegalMove m.before (assigned randNum m.client) r) ∧
      LegalMove m.before (assigned randNum m.client) q ∧
      m.turn.output = told m.before (assigned randNum m.client) before ++ [.prompt,.handOver] := by
  obtain ⟨returns, all⟩ := moveReturned run inside
  obtain ⟨before, split, waits⟩ := Replay.returnsInputs returns all
  obtain ⟨ply, returned⟩ := makeMoveReturned returns
  have legal : LegalMove m.before (assigned randNum m.client) m.turn.typed := by
    rw [returned.typed]
    exact (legalMovePly _ _ _).mpr ⟨ply, rfl, returned.legal⟩
  have illegal : ∀ r ∈ before, ¬ LegalMove m.before (assigned randNum m.client) r :=
    fun r member => illegalMove.mp (makeMoveWaits.mp waits r member)
  rw [split] at returns
  exact ⟨before, m.turn.typed, split, illegal, legal, returnedTold illegal legal returns⟩

theorem askedTold (run : Run (distributed randNum) labels s)
    (moving : (s.klient c).phase = .moving typed) :
    (∀ q ∈ typed, ¬ LegalMove (latest (moves labels)) (assigned randNum c) q) ∧
    Screen.asked (s.klient c) typed =
      told (latest (moves labels)) (assigned randNum c) typed ++ [.prompt] := by
  obtain ⟨place, _, holds, _⟩ := Token.reachableHolds run
  have held := (SharedBoard.movingTurn holds moving).1
  have mine : (s.klient c).playerChar = (assigned randNum c).man :=
    ((Discipline.showsColour (holds.shown c)).1 (by simp [moving])).trans (assignedMan randNum c)
  have soFar : typedSoFar (s.klient c) = typed := by simp only [typedSoFar, moving]
  have waits := (Replay.accountRun run).waits c
  rw [Replay.Waits, held, mine, soFar] at waits
  have illegal : ∀ q ∈ typed, ¬ LegalMove (latest (moves labels)) (assigned randNum c) q :=
    fun q member => illegalMove.mp (makeMoveWaits.mp waits q member)
  obtain ⟨log, logged, printed'⟩ := waitingTold illegal
  refine ⟨illegal, ?_⟩
  unfold Screen.asked
  rw [held, mine, logged, ← printed']

theorem playersTold (run : Run (distributed randNum) labels s) :
    (∀ m ∈ moves labels, ∃ before q, m.inputs = before ++ [q] ∧
      (∀ r ∈ before, ¬ LegalMove m.before (assigned randNum m.client) r) ∧
      LegalMove m.before (assigned randNum m.client) q ∧
      m.turn.output = told m.before (assigned randNum m.client) before ++ [.prompt,.handOver]) ∧
    ∀ c typed, (s.klient c).phase = .moving typed →
      (∀ q ∈ typed, ¬ LegalMove (latest (moves labels)) (assigned randNum c) q) ∧
      Screen.asked (s.klient c) typed =
        told (latest (moves labels)) (assigned randNum c) typed ++ [.prompt] :=
  ⟨fun _ inside => moveTold run inside, fun _ _ moving => askedTold run moving⟩

def refusedActions : List Action :=
  [.serverSends,.serverSends,.receives .one,.serverSends,.receives .one,.types .one ⟨3,2,4,2⟩,
    .types .one ⟨6,1,5,2⟩,.types .one ⟨3,2,4,3⟩]

theorem playersToldOpening : ∃ labels s, Run (distributed 0) labels s ∧
    ∃ m ∈ moves labels, m.inputs.length = 3 ∧
      m.turn.output = told m.before (assigned 0 m.client) (m.inputs.take 2) ++ [.prompt,.handOver] := by
  obtain ⟨labels, s, run, three⟩ := playedRun (fun labels _ => (moves labels).map (·.inputs.length))
    refusedActions [3] rfl
  obtain ⟨m, alone, length⟩ := List.map_eq_singleton_iff.mp three
  have inside : m ∈ moves labels := by rw [alone]; exact List.mem_singleton_self m
  obtain ⟨before, q, split, _, _, output⟩ :=
    (playersTold run).1 m inside
  refine ⟨labels, s, run, m, inside, length, ?_⟩
  have two : before.length = 2 := by
    rw [split, List.length_append, List.length_singleton] at length
    omega
  rw [output, split, List.take_left' two]

end Network
end Warcaby.Diagnosis
