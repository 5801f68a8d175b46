import Warcaby.Play
import Warcaby.Reading

/-! The iterations of the loop one by one. Each is defined on every board and on any four
integers. What it prints tells a rejected quadruple from an accepted one, except
where the king branch rejects without a `continue`. -/
namespace Warcaby.Iteration
open Grid (Inside get write getWrite)
open MakeMove Rule Turn Rulebook Outcome
open Reading (makeMoveReading readCoordinates)

theorem passDefined (board : Board) (player : Byte) (v : Coordinates) :
    ∃ r, MakeMove.pass board player v = .ok r := by
  rcases passVerdict board player v with ⟨m, _, _, performs⟩ | ⟨_, r, passed, _⟩
  · exact ⟨_, performs⟩
  · exact ⟨r, passed⟩

theorem readingDefined (tokens : Scanf.Tokens) (player : Byte) (n : Nat) (board : Board)
    (vars : Coordinates) (start : Nat) :
    ∃ out, makeMoveReading tokens player n board vars start = .ok out := by
  induction n generalizing board vars start with
  | zero => exact ⟨none, rfl⟩
  | succ n ih =>
    obtain ⟨r, passed⟩ := passDefined board player (readCoordinates tokens vars start).1
    simp only [makeMoveReading, passed, okBind]
    split
    · exact ⟨_, rfl⟩
    · exact ih r.board r.vars _

theorem makeMoveDefined (board : Board) (player : Byte) :
    (∀ v, ∃ r, MakeMove.pass board player v = .ok r) ∧
    (∀ heads, ∃ out, makeMove board player heads = .ok out) ∧
    ∀ tokens n vars start, ∃ out, makeMoveReading tokens player n board vars start = .ok out :=
  ⟨passDefined board player, makeMoveNoFault board player,
    fun tokens n vars start => readingDefined tokens player n board vars start⟩

def rejection : Notice → Bool
  | .prompt | .handOver => false
  | _ => true

def Blocks (board : Board) (c : Colour) (q : Coordinates) (k : Nat) : Prop :=
  stepped board q k ≠ blank ∧ stepped board q k ≠ c.other.man

/- A king, of either side, asked to leave its diagonal or to pass over anything but enemy
men: both reject paths run on into the hand-over text. -/
structure FallsThrough (board : Board) (c : Colour) (q : Coordinates) : Prop where
  onBoard : OnBoard q
  king : square board q.x1 q.y1 = c.king
  empty : square board q.x2 q.y2 = blank
  stopped : (q.x2 - q.x1).natAbs ≠ (q.y2 - q.y1).natAbs ∨
    ∃ k, 0 < k ∧ k < (q.x2 - q.x1).natAbs ∧ Blocks board c q k

section Output
variable {board : Board} {player : Byte} {v q : Coordinates} {falls : Prop}

def Tells (falls : Prop) (r : Pass) : Prop :=
  r.correctMove = false →
    (¬ falls ∧ ∃ n, rejection n = true ∧ r.output = [.prompt,n]) ∨ (falls ∧ .handOver ∈ r.output)

theorem tellsRejected (never : ¬ falls) {notice : Notice} (rejects : rejection notice = true) :
    Ends (Tells falls) (.ok (rejected v board notice) : Checked Pass) :=
  endsOk (fun _ => .inl ⟨never, notice, rejects, rfl⟩)

theorem tellsAccepted : Ends (Tells falls) (.ok (accepted v board) : Checked Pass) :=
  endsOk nofun

theorem manTells (never : ¬ falls) (dx dy : Int) :
    Ends (Tells falls) (manBranch board player v dx dy) := by
  unfold manBranch
  refine endsIte (fun _ => tellsRejected never rfl) (fun _ => endsIte (fun _ => ?_)
    (fun _ => endsIte (fun _ => ?_) (fun _ => tellsRejected never rfl)))
  · exact endsBind _ fun _ _ => endsBind _ fun _ _ => endsBind _ fun _ _ => tellsAccepted
  · refine endsBind _ fun _ _ => endsIte (fun _ => ?_) (fun _ => tellsRejected never rfl)
    exact endsBind _ fun _ _ => endsBind _ fun _ _ => endsBind _ fun _ _ =>
      endsBind _ fun _ _ => tellsAccepted

theorem scanCellOwn {dirX dirY : Int} {c : Colour}
    (cells : ∀ k : Nat, stepped board q k = get board (v.x1 + k * dirX) (v.y1 + k * dirY))
    (done : List Nat) (i : Nat) (s : Scan)
    (before : 0 < s.ownPieces ↔ ∃ k ∈ done, Blocks board c q k) :
    Ends (fun s' => 0 < s'.ownPieces ↔ ∃ k ∈ done ++ [i], Blocks board c q k)
      (scanCell board c.king v dirX dirY s i) := by
  have enemy : (if c.king = charD then charO else charX) = c.other.man := by cases c <;> rfl
  have later : (∃ k ∈ done ++ [i], Blocks board c q k) ↔ (0 < s.ownPieces ∨ Blocks board c q i) := by
    simp [before, or_and_right, exists_or]
  unfold scanCell
  rw [enemy]
  refine endsBind _ (fun cell loaded => ?_)
  have here : cell = stepped board q i := (loadOk loaded).2.trans (cells i).symm
  subst here
  refine endsIte (fun occupied => endsIte (fun found => endsOk ?_) (fun foreign => endsOk ?_))
    (fun clear => endsOk ?_)
  · rw [later]
    exact ⟨.inl, fun either => either.resolve_right (fun blocks => blocks.2 found)⟩
  · rw [later]
    exact ⟨fun _ => .inr ⟨occupied, foreign⟩, fun _ => Nat.succ_pos _⟩
  · rw [later]
    exact ⟨.inl, fun either => either.resolve_right (fun blocks => clear blocks.1)⟩

theorem divideSign {a d : Int} (divided : divide a a.natAbs = .ok d) : d = a.sign := by
  by_cases zero : a = 0
  · subst zero
    cases divided
  · have positive : 0 < a.natAbs := Int.natAbs_pos.mpr zero
    have along := divideDirection positive (signOfMove zero)
    rw [Int.mul_comm, Int.sign_mul_natAbs, divided] at along
    cases along
    rfl

theorem fallsKing {c : Colour} (king : square board q.x1 q.y1 = c.king) :
    (∃ d, FallsThrough board d q) ↔ FallsThrough board c q := by
  constructor
  · rintro ⟨d, through⟩
    have same : d = c := Colour.kingUnique (through.king.symm.trans king)
    exact same ▸ through
  · exact fun through => ⟨c, through⟩

theorem scanFalls {c : Colour} {s : Scan} (onBoard : OnBoard q)
    (king : square board q.x1 q.y1 = c.king) (empty : square board q.x2 q.y2 = blank)
    (slope : (q.x2 - q.x1).natAbs = (q.y2 - q.y1).natAbs)
    (scanned : (List.range' 1 (((q.x2 - q.x1).natAbs : Int) - 1).toNat).foldlM
      (scanCell board c.king ⟨q.x1 - 1,q.y1 - 1,q.x2 - 1,q.y2 - 1⟩
        (q.x2 - q.x1).sign (q.y2 - q.y1).sign) ⟨0,0,none⟩ = .ok s) :
    FallsThrough board c q ↔ 0 < s.ownPieces := by
  have cells (k : Nat) : stepped board q k =
      get board (q.x1 - 1 + k * (q.x2 - q.x1).sign) (q.y1 - 1 + k * (q.y2 - q.y1).sign) := by
    rw [stepped, square]
    congr 1 <;> omega
  have start : 0 < (⟨0,0,none⟩ : Scan).ownPieces ↔ ∃ k ∈ ([] : List Nat), Blocks board c q k := by
    simp
  have seen : 0 < s.ownPieces ↔ ∃ k ∈ [] ++ List.range' 1 _, Blocks board c q k :=
    endsFold (scanCellOwn cells) start _ s scanned
  rw [seen]
  constructor
  · rintro ⟨_, _, _, apart | ⟨k, positive, near, blocks⟩⟩
    · exact absurd slope apart
    · exact ⟨k, List.mem_range'_1.mpr (by omega), blocks⟩
  · rintro ⟨k, member, blocks⟩
    have inside := List.mem_range'_1.mp member
    exact ⟨onBoard, king, empty, .inr ⟨k, by omega, by omega, blocks⟩⟩

theorem kingTells {c : Colour} (onBoard : OnBoard q) (king : square board q.x1 q.y1 = c.king)
    (empty : square board q.x2 q.y2 = blank) :
    Ends (Tells (FallsThrough board c q))
      (kingBranch board c.king ⟨q.x1 - 1,q.y1 - 1,q.x2 - 1,q.y2 - 1⟩
        (q.x2 - 1 - (q.x1 - 1)).natAbs (q.y2 - 1 - (q.y1 - 1)).natAbs) := by
  have alongX : q.x2 - 1 - (q.x1 - 1) = q.x2 - q.x1 := by omega
  have alongY : q.y2 - 1 - (q.y1 - 1) = q.y2 - q.y1 := by omega
  unfold kingBranch
  simp only [alongX, alongY]
  refine endsIte (fun slope => ?_) (fun apart => endsOk (fun _ => .inr ⟨?_, by simp⟩))
  · refine endsBind _ (fun dirX dividedX => endsBind _ (fun dirY dividedY =>
      endsBind _ (fun s scanned => ?_)))
    rw [divideSign dividedX, divideSign dividedY] at scanned
    have falls := scanFalls onBoard king empty (by omega) scanned
    refine endsIte (fun own => endsOk (fun _ => .inr ⟨falls.mpr own, by simp⟩)) (fun clear => ?_)
    refine endsIte (fun _ => ?_) (fun _ => tellsRejected (fun through => clear (falls.mp through)) rfl)
    exact endsBind _ fun _ _ => endsBind _ fun _ _ => endsBind _ fun _ _ => tellsAccepted
  · exact ⟨onBoard, king, empty, .inl (by omega)⟩

theorem passTells (board : Board) (player : Byte) (q : Coordinates) :
    Ends (Tells (∃ c, FallsThrough board c q)) (MakeMove.pass board player q) := by
  unfold MakeMove.pass
  refine endsIte (fun outside => tellsRejected ?_ rfl) (fun inside => ?_)
  · rintro ⟨c, through⟩
    exact Reading.inRange through.onBoard outside
  unfold movePiece
  refine endsBind _ (fun piece loaded => ?_)
  have here : square board q.x1 q.y1 = piece := (loadOk loaded).2.symm
  refine endsIte (fun foreign => tellsRejected ?_ rfl) (fun _ => endsBind _ (fun cell loaded' => ?_))
  · rintro ⟨c, through⟩
    have king := here.symm.trans through.king
    cases c with
    | x => exact foreign.2.1 king
    | o => exact foreign.2.2 king
  have there : square board q.x2 q.y2 = cell := (loadOk loaded').2.symm
  refine endsIte (fun occupied => tellsRejected ?_ rfl) (fun empty => ?_)
  · rintro ⟨c, through⟩
    exact occupied (there.symm.trans through.empty)
  refine endsIte (fun man => manTells ?_ _ _) (fun _ => endsIte (fun king => ?_)
    (fun other => tellsRejected ?_ rfl))
  · rintro ⟨c, through⟩
    have king := here.symm.trans through.king
    rw [king] at man
    exact c.kingNoMan man
  · have colour : ∃ c : Colour, piece = c.king := king.elim (fun d => ⟨.x, d⟩) (fun d => ⟨.o, d⟩)
    obtain ⟨c, rfl⟩ := colour
    have vacant : square board q.x2 q.y2 = blank := there.trans (not_not.mp empty)
    have onBoard : OnBoard q := by
      unfold OutOfRange at inside
      constructor <;> omega
    rw [fallsKing here]
    exact kingTells onBoard here vacant
  · rintro ⟨c, through⟩
    have king := here.symm.trans through.king
    rw [king] at other
    exact other c.kingLetter

end Output

structure Attempt where
  board : Board
  typed : Coordinates
  pass : Pass

-- `makeMove` again, with every iteration kept: the board it began on and what it did.
def attempts (board : Board) (player : Byte) : List Coordinates → Checked (List Attempt)
  | [] => .ok []
  | typed :: rest => do
    let p ← MakeMove.pass board player typed
    if p.correctMove then .ok [⟨board,typed,p⟩]
    else
      let later ← attempts p.board player rest
      .ok (⟨board,typed,p⟩ :: later)

def printed (log : List Attempt) : List Notice := log.flatMap (fun a => a.pass.output)

structure Announced (log : List Attempt) : Prop where
  once : (printed log).count .handOver = 1
  changes : ∀ a ∈ log, .handOver ∈ a.pass.output ↔ a.pass.board ≠ a.board
  rejects : ∀ a ∈ log, a.pass.correctMove = false →
    .handOver ∉ a.pass.output ∧ ∃ n ∈ a.pass.output, rejection n = true

section Calls
variable {board : Board} {player : Byte} {m : Ply} {before : List Coordinates}

structure Rejected (board : Board) (a : Attempt) : Prop where
  begins : a.board = board
  unchanged : a.pass.board = board
  incorrect : a.pass.correctMove = false
  tells : Tells (∃ c, FallsThrough board c a.typed) a.pass

def acceptedAttempt (board : Board) (m : Ply) : Attempt :=
  ⟨board,m.typed,accepted m.vars (m.result board)⟩

theorem attemptsLegal (rejections : ∀ q ∈ before, Illegal board player q)
    (legal : Legal board player m) (rest : List Coordinates) :
    ∃ log t, attempts board player (before ++ m.typed :: rest) =
        .ok (log ++ [acceptedAttempt board m]) ∧
      makeMove board player (before ++ m.typed :: rest) = .ok (some t) ∧
      t.output = printed (log ++ [acceptedAttempt board m]) ∧
      log.map Attempt.typed = before ∧ ∀ a ∈ log, Rejected board a := by
  induction before with
  | nil =>
    refine ⟨[], ⟨m.result board,m.typed,rest,[.prompt,.handOver]⟩, ?_, ?_, rfl, rfl, by simp⟩
    · simp only [List.nil_append, attempts, passLegal legal, performed, okBind]
      rfl
    · simp only [List.nil_append, makeMove, passLegal legal, performed, okBind]
      rfl
  | cons q before ih =>
    obtain ⟨log, t, logged, returns, output, typed, rejected⟩ :=
      ih (fun q inside => rejections q (List.mem_cons_of_mem _ inside))
    obtain ⟨r, passed, incorrect, same⟩ := passIllegal (rejections q List.mem_cons_self)
    refine ⟨⟨board,q,r⟩ :: log, {t with output := r.output ++ t.output}, ?_, ?_, ?_, ?_, ?_⟩
    · simp [attempts, passed, incorrect, same, logged]
    · simp [makeMove, passed, incorrect, same, returns]
    · simp [printed, output]
    · simp [typed]
    · intro a member
      rcases List.mem_cons.mp member with rfl | inside
      · exact ⟨rfl, same, incorrect, passTells board player q r passed⟩
      · exact rejected a inside

theorem resultChanges (legal : Legal board player m) : m.result board ≠ board := by
  intro same
  obtain ⟨i, j, row, column, here⟩ := Play.moverCell legal
  have cleared : m.moved board i j = blank := by
    rw [Ply.moved, Grid.writeCell, if_pos ⟨row.symm, column.symm⟩]
  have empty : m.result board i j = blank := by
    unfold Ply.result
    cases m.jumped with
    | some k =>
      dsimp only
      rw [Grid.writeCell, cleared, ite_self]
    | none => exact cleared
  rw [same, ← here] at empty
  exact Play.moverNotBlank legal empty

theorem rejectedNotice {a : Attempt} (reject : Rejected board a)
    (never : ¬ ∃ c, FallsThrough board c a.typed) :
    .handOver ∉ a.pass.output ∧ ∃ n ∈ a.pass.output, rejection n = true := by
  rcases reject.tells reject.incorrect with ⟨_, n, rejects, output⟩ | ⟨through, _⟩
  · rw [output]
    refine ⟨?_, n, by simp, rejects⟩
    cases n <;> first | decide | exact absurd rejects (by decide)
  · exact absurd through never

theorem announcedFalls (legal : Legal board player m) {log : List Attempt}
    (rejected : ∀ a ∈ log, Rejected board a) :
    Announced (log ++ [acceptedAttempt board m]) ↔
      ∀ a ∈ log, ¬ ∃ c, FallsThrough board c a.typed := by
  constructor
  · intro announced a member through
    have reject := rejected a member
    have law := announced.rejects a (by simp [member]) reject.incorrect
    rcases reject.tells reject.incorrect with ⟨never, _⟩ | ⟨_, told⟩
    · exact never through
    · exact law.1 told
  · intro never
    have notice (a : Attempt) (member : a ∈ log) := rejectedNotice (rejected a member) (never a member)
    have quiet : (printed log).count .handOver = 0 := by
      refine List.count_eq_zero.mpr (fun told => ?_)
      obtain ⟨a, member, inside⟩ := List.mem_flatMap.mp told
      exact (notice a member).1 inside
    refine ⟨?_, fun a member => ?_, fun a member incorrect => ?_⟩
    · rw [printed, List.flatMap_append, List.count_append, ← printed, quiet]
      rfl
    · rcases List.mem_append.mp member with early | last
      · have reject := rejected a early
        have still : a.pass.board = a.board := reject.unchanged.trans reject.begins.symm
        exact ⟨fun told => absurd told (notice a early).1, fun changed => absurd still changed⟩
      · rw [List.mem_singleton.mp last]
        exact ⟨fun _ => resultChanges legal, fun _ => .tail _ (.head _)⟩
    · rcases List.mem_append.mp member with early | last
      · exact notice a early
      · rw [List.mem_singleton.mp last] at incorrect
        cases incorrect

def FallsFirst (board : Board) (p : Colour) (inputs : Inputs) : Prop :=
  ∃ l, (∃ q c, inputs.get? l = some q ∧ FallsThrough board c q) ∧
    ∀ j ≤ l, ∀ q, inputs.get? j = some q → ¬ LegalMove board p q

theorem fallsBefore {p : Colour} {inputs : Inputs} {k : Nat} (legal : Legal board p.man m)
    (found : inputs.get? k = some m.typed)
    (early : ∀ l < k, ∀ q, inputs.get? l = some q → Illegal board p.man q) :
    FallsFirst board p inputs ↔ ∃ q ∈ inputs.take k, ∃ c, FallsThrough board c q := by
  constructor
  · rintro ⟨l, ⟨q, c, here, through⟩, illegal⟩
    have near : l < k := by
      by_contra far
      exact illegal k (by omega) m.typed found (legalMoveOfPly legal)
    exact ⟨q, memberTake.mpr ⟨l, near, here⟩, c, through⟩
  · rintro ⟨q, member, c, through⟩
    obtain ⟨l, near, here⟩ := memberTake.mp member
    exact ⟨l, ⟨q, c, here, through⟩,
      fun j before q' typed => illegalMove.mp (early j (by omega) q' typed)⟩

theorem handOverAnnounced (board : Board) (p : Colour) (inputs : Inputs) (k : Nat) (t : Turn)
    (returns : ReturnsAt board p.man inputs k t) :
    ∃ log, attempts board p.man (inputs.take (k + 1)) = .ok log ∧ t.output = printed log ∧
      (Announced log ↔ ¬ FallsFirst board p inputs) := by
  obtain ⟨m, legal, found, _, _, early⟩ := returnsPly returns
  have rejections : ∀ q ∈ inputs.take k, Illegal board p.man q :=
    makeMoveWaits.mp returns.waits
  obtain ⟨log, u, logged, stops, output, typed, rejected⟩ := attemptsLegal rejections legal []
  have split : inputs.take (k + 1) = inputs.take k ++ [m.typed] := by
    rw [takeNext, found]
    rfl
  have same : t = u := by
    have both := returns.returns
    rw [split, stops] at both
    simpa using both.symm
  refine ⟨_, split ▸ logged, same ▸ output, ?_⟩
  rw [announcedFalls legal rejected, fallsBefore legal found early, ← typed]
  simp

end Calls

theorem noKing (c : Colour) : ∀ i j : Fin 8, initializeBoard i j ≠ c.king := by
  cases c <;> decide

theorem handOverOpening : ∃ log,
    attempts initializeBoard charX ((Stream'.Seq.ofList Play.openingCall.inputs).take 2) = .ok log ∧
      Play.openingCall.turn.output = printed log ∧ Announced log := by
  obtain ⟨log, logged, output, announced⟩ := handOverAnnounced initializeBoard .x
    (Stream'.Seq.ofList Play.openingCall.inputs) 1 Play.openingCall.turn ⟨rfl, rfl⟩
  refine ⟨log, logged, output, announced.mpr ?_⟩
  rintro ⟨_, ⟨q, c, _, through⟩, _⟩
  obtain ⟨i, j, row, column⟩ := Grid.insideIndices (onBoardInside through.onBoard).1
  have king := through.king
  rw [square, row, column, Grid.getCell] at king
  exact noKing c i j king

def loneKing : Board := write (fun _ _ => blank) 2 1 charD

theorem handOverTwice : GameCells loneKing ∧ ∃ t log,
    ReturnsAt loneKing charX (Stream'.Seq.ofList [⟨3,2,4,2⟩,⟨3,2,4,3⟩]) 1 t ∧
    attempts loneKing charX [⟨3,2,4,2⟩,⟨3,2,4,3⟩] = .ok log ∧
    t.output = [.prompt,.handOver,.prompt,.handOver] ∧ t.output = printed log ∧ ¬ Announced log :=
  ⟨by decide, _, _, ⟨rfl, rfl⟩, rfl, rfl, rfl, fun announced => absurd announced.once (by decide)⟩

end Warcaby.Iteration
