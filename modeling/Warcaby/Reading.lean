import Warcaby.Outcome
import Warcaby.Rulebook
import Warcaby.Scanf

/-! `make_move` on the tokens of its standard input. The result of `scanf` is not
looked at, and x1 .. y2 keep what a rejected iteration left in them, so a call that
meets a word goes on with numbers nobody typed, each one less than before. -/
namespace Warcaby.Reading
open MakeMove Rule Turn Rulebook Scanf Outcome

-- `scanf("%d %d %d %d", &x1, &y1, &x2, &y2)`
def conversions : List (Coordinates → Int → Coordinates) :=
  [fun v z => {v with x1 := z}, fun v z => {v with y1 := z},
    fun v z => {v with x2 := z}, fun v z => {v with y2 := z}]

def readCoordinates (tokens : Tokens) (vars : Coordinates) (start : Nat) : Coordinates × Nat :=
  scanf tokens conversions vars start

/- What a call that returned has done: the coordinates of its last iteration, and the
tokens its last `scanf` has read, from `start` up to `stop`. -/
structure Applied where
  board : Board
  coordinates : Coordinates
  start : Nat
  stop : Nat
  deriving DecidableEq

/- The loop of `make_move` on the tokens from `start` on, for at most so many iterations;
`vars` is what the four variables hold. -/
def makeMoveReading (tokens : Tokens) (player : Byte) :
    Nat → Board → Coordinates → Nat → Checked (Option Applied)
  | 0, _, _, _ => .ok none
  | n + 1, board, vars, start => do
    let (v,stop) := readCoordinates tokens vars start
    let p ← pass board player v
    if p.correctMove then .ok (some ⟨p.board,v,start,stop⟩)
    else makeMoveReading tokens player n p.board p.vars stop

section Vars

def lowered (q : Coordinates) (d : Nat) : Coordinates := ⟨q.x1 - d,q.y1 - d,q.x2 - d,q.y2 - d⟩

def varsLeft (q : Coordinates) : Coordinates := if OutOfRange q then q else lowered q 1

def Leaves (v : Coordinates) (out : Checked Pass) : Prop := ∀ r, out = .ok r → r.vars = v

theorem manBranchLeaves (board : Board) (player : Byte) (v : Coordinates) (dx dy : Int) :
    Leaves v (manBranch board player v dx dy) := by
  unfold manBranch
  refine endsIte (fun _ => endsOk rfl) (fun _ => endsIte (fun _ => ?_)
    (fun _ => endsIte (fun _ => ?_) (fun _ => endsOk rfl)))
  · exact endsBind _ fun _ _ => endsBind _ fun _ _ => endsBind _ fun _ _ => endsOk rfl
  · refine endsBind _ fun _ _ => endsIte (fun _ => ?_) (fun _ => endsOk rfl)
    exact endsBind _ fun _ _ => endsBind _ fun _ _ => endsBind _ fun _ _ =>
      endsBind _ fun _ _ => endsOk rfl

theorem kingBranchLeaves (board : Board) (piece : Byte) (v : Coordinates) (dx dy : Int) :
    Leaves v (kingBranch board piece v dx dy) := by
  unfold kingBranch
  refine endsIte (fun _ => ?_) (fun _ => endsOk rfl)
  refine endsBind _ fun _ _ => endsBind _ fun _ _ => endsBind _ fun _ _ => ?_
  refine endsIte (fun _ => endsOk rfl) (fun _ => endsIte (fun _ => ?_) (fun _ => endsOk rfl))
  exact endsBind _ fun _ _ => endsBind _ fun _ _ => endsBind _ fun _ _ => endsOk rfl

theorem passLeaves (board : Board) (player : Byte) (q : Coordinates) :
    Leaves (varsLeft q) (pass board player q) := by
  unfold MakeMove.pass varsLeft
  split
  · exact endsOk rfl
  · unfold movePiece
    refine endsBind _ fun _ _ => endsIte (fun _ => endsOk rfl) (fun _ => ?_)
    refine endsBind _ fun _ _ => endsIte (fun _ => endsOk rfl) (fun _ => ?_)
    refine endsIte (fun _ => ?_) (fun _ => endsIte (fun _ => ?_) (fun _ => endsOk rfl))
    · exact manBranchLeaves board player _ _ _
    · exact kingBranchLeaves board _ _ _ _

end Vars

section Iteration
variable {tokens : Tokens} {board : Board} {p : Colour} {vars v : Coordinates} {start stop n : Nat}

theorem iterationLegal (reads : readCoordinates tokens vars start = (v,stop))
    (legal : LegalMove board p v) :
    makeMoveReading tokens p.man (n + 1) board vars start =
      .ok (some ⟨applied board v,v,start,stop⟩) := by
  obtain ⟨m, rfl, ply⟩ := (legalMovePly board p v).mp legal
  simp only [makeMoveReading, reads, passLegal ply, performed, okBind, appliedResult ply]
  rfl

theorem iterationIllegal (reads : readCoordinates tokens vars start = (v,stop))
    (illegal : ¬ LegalMove board p v) :
    makeMoveReading tokens p.man (n + 1) board vars start =
      makeMoveReading tokens p.man n board (varsLeft v) stop := by
  obtain ⟨r, passed, incorrect, same⟩ := passIllegal (illegalMove.mpr illegal)
  have kept := passLeaves board p.man v r passed
  simp only [makeMoveReading, reads, passed, okBind, incorrect, same, kept]
  rfl

end Iteration

section Stuck
variable {tokens : Tokens} {board : Board} {p : Colour} {v : Coordinates} {start : Nat}

def Slides (board : Board) (p : Colour) (v : Coordinates) : Prop :=
  ¬ OutOfRange v ∧ ∃ d : Nat, LegalMove board p (lowered v d)

theorem loweredZero (v : Coordinates) : lowered v 0 = v := by
  simp [lowered]

theorem loweredOnce (v : Coordinates) (d : Nat) : lowered (lowered v 1) d = lowered v (d + 1) := by
  simp only [lowered, Coordinates.mk.injEq]
  omega

theorem inRange (onBoard : OnBoard v) : ¬ OutOfRange v := by
  obtain ⟨x1, y1, x2, y2⟩ := onBoard
  unfold OutOfRange
  omega

theorem legalSlides (legal : LegalMove board p v) : Slides board p v :=
  ⟨inRange legal.onBoard, 0, by rwa [loweredZero]⟩

theorem varsLeftInside (inside : ¬ OutOfRange v) : varsLeft v = lowered v 1 := if_neg inside

theorem slidesLeft (slides : Slides board p (varsLeft v)) : Slides board p v := by
  by_cases outside : OutOfRange v
  · rwa [varsLeft, if_pos outside] at slides
  · rw [varsLeftInside outside] at slides
    obtain ⟨_, d, legal⟩ := slides
    rw [loweredOnce] at legal
    exact ⟨outside, d + 1, legal⟩

theorem slidesNext {d : Nat} (inside : ¬ OutOfRange v) (legal : LegalMove board p (lowered v (d + 1))) :
    ¬ OutOfRange (varsLeft v) ∧ LegalMove board p (lowered (varsLeft v) d) := by
  rw [varsLeftInside inside, loweredOnce]
  refine ⟨?_, legal⟩
  obtain ⟨x1, y1, x2, y2⟩ := legal.onBoard
  unfold OutOfRange at inside ⊢
  simp only [lowered] at x1 y1 x2 y2 ⊢
  omega

theorem slidesLater (illegal : ¬ LegalMove board p v) (slides : Slides board p v) :
    Slides board p (varsLeft v) := by
  obtain ⟨inside, d, legal⟩ := slides
  cases d with
  | zero =>
    rw [loweredZero] at legal
    exact absurd legal illegal
  | succ d =>
    obtain ⟨within, later⟩ := slidesNext inside legal
    exact ⟨within, d, later⟩

theorem stuckSlides {a : Applied} (gap : Gap tokens start) (n : Nat)
    (returns : makeMoveReading tokens p.man n board v start = .ok (some a)) :
    Slides board p v := by
  have reads (w : Coordinates) : readCoordinates tokens w start = (w,start) := scanfGap gap _ w
  induction n generalizing v with
  | zero => cases returns
  | succ n ih =>
    by_cases legal : LegalMove board p v
    · exact legalSlides legal
    · rw [iterationIllegal (reads v) legal] at returns
      exact slidesLeft (ih returns)

theorem slidesStuck (gap : Gap tokens start) (slides : Slides board p v) :
    ∃ n a, makeMoveReading tokens p.man n board v start = .ok (some a) ∧
      a.start = start ∧ a.stop = start := by
  have reads (w : Coordinates) : readCoordinates tokens w start = (w,start) := scanfGap gap _ w
  obtain ⟨inside, d, legal⟩ := slides
  induction d generalizing v with
  | zero =>
    rw [loweredZero] at legal
    exact ⟨1, _, iterationLegal (reads v) legal, rfl, rfl⟩
  | succ d ih =>
    by_cases now : LegalMove board p v
    · exact ⟨1, _, iterationLegal (reads v) now, rfl, rfl⟩
    · obtain ⟨within, later⟩ := slidesNext inside legal
      obtain ⟨n, a, returns, same⟩ := ih within later
      exact ⟨n + 1, a, (iterationIllegal (reads v) now).trans returns, same⟩

end Stuck

section Whole
variable {tokens : Tokens} {board : Board} {p : Colour} {start : Nat}

def integers (q : Coordinates) : List Token :=
  [.integer q.x1,.integer q.y1,.integer q.x2,.integer q.y2]

theorem readWhole {q : Coordinates} (ahead : Ahead tokens start (integers q)) (vars : Coordinates) :
    readCoordinates tokens vars start = (q,start + 4) := by
  simp only [integers, aheadCons] at ahead
  obtain ⟨x1, y1, x2, y2, _⟩ := ahead
  rw [readCoordinates, conversions, scanfInteger x1, scanfInteger y1, scanfInteger x2,
    scanfInteger y2, scanf]

theorem readCases (tokens : Tokens) (vars : Coordinates) (start : Nat) :
    (∃ q, Ahead tokens start (integers q)) ∨
      (readCoordinates tokens vars start).2 < start + 4 ∧
        Gap tokens (readCoordinates tokens vars start).2 := by
  rcases scanfCases conversions vars start with ⟨zs, size, ahead⟩ | short
  · obtain ⟨a, b, c, d, rfl⟩ := List.length_eq_four.mp size
    exact .inl ⟨⟨a,b,c,d⟩, ahead⟩
  · exact .inr short

theorem integersAhead {quads : List Coordinates} {q : Coordinates} :
    Ahead tokens start ((q :: quads).flatMap integers) ↔
      Ahead tokens start (integers q) ∧ Ahead tokens (start + 4) (quads.flatMap integers) := by
  rw [List.flatMap_cons, aheadAppend]
  rfl

end Whole

section Typed
variable {tokens : Tokens} {board : Board} {p : Colour} {vars : Coordinates} {start : Nat} {a : Applied}

structure Typed (tokens : Tokens) (a : Applied) : Prop where
  one : a.stop = a.start + 4
  ahead : Ahead tokens a.start (integers a.coordinates)

def afterAll (vars : Coordinates) (quads : List Coordinates) : Coordinates :=
  quads.foldl (fun _ q => varsLeft q) vars

/- A call that applies numbers that were not typed together: all whole quadruples before the
first word, or before the end, are illegal, and what `scanf` leaves in the variables there
slides onto a legal move. -/
structure Stale (tokens : Tokens) (board : Board) (p : Colour) (vars : Coordinates) (start : Nat)
    (quads : List Coordinates) : Prop where
  whole : Ahead tokens start (quads.flatMap integers)
  rejected : ∀ q ∈ quads, ¬ LegalMove board p q
  short : (readCoordinates tokens (afterAll vars quads) (start + 4 * quads.length)).2 <
    start + 4 * quads.length + 4
  slides : Slides board p
    (readCoordinates tokens (afterAll vars quads) (start + 4 * quads.length)).1

theorem staleCons {q : Coordinates} {quads : List Coordinates} :
    Stale tokens board p vars start (q :: quads) ↔
      Ahead tokens start (integers q) ∧ ¬ LegalMove board p q ∧
        Stale tokens board p (varsLeft q) (start + 4) quads := by
  have position : start + 4 * (q :: quads).length = start + 4 + 4 * quads.length := by
    rw [List.length_cons]; omega
  constructor
  · rintro ⟨whole, rejected, short, slides⟩
    obtain ⟨first, rest⟩ := integersAhead.mp whole
    rw [position] at short slides
    exact ⟨first, rejected q List.mem_cons_self, rest,
      fun r inside => rejected r (List.mem_cons_of_mem _ inside), short, slides⟩
  · rintro ⟨first, illegal, rest, rejected, short, slides⟩
    rw [← position] at short slides
    refine ⟨integersAhead.mpr ⟨first, rest⟩, ?_, short, slides⟩
    intro r inside
    rcases List.mem_cons.mp inside with rfl | later
    · exact illegal
    · exact rejected r later

theorem readingTyped {n : Nat}
    (returns : makeMoveReading tokens p.man n board vars start = .ok (some a)) :
    Typed tokens a ∨ ∃ quads, Stale tokens board p vars start quads := by
  induction n generalizing vars start with
  | zero => cases returns
  | succ n ih =>
    rcases readCases tokens vars start with ⟨q, ahead⟩ | ⟨short, gap⟩
    · have reads := readWhole ahead vars
      by_cases legal : LegalMove board p q
      · rw [iterationLegal reads legal] at returns
        cases returns
        exact .inl ⟨rfl, ahead⟩
      · rw [iterationIllegal reads legal] at returns
        rcases ih returns with typed | ⟨quads, stale⟩
        · exact .inl typed
        · exact .inr ⟨q :: quads, staleCons.mpr ⟨ahead, legal, stale⟩⟩
    · have slides : Slides board p (readCoordinates tokens vars start).1 := by
        by_cases legal : LegalMove board p (readCoordinates tokens vars start).1
        · exact legalSlides legal
        · rw [iterationIllegal rfl legal] at returns
          exact slidesLeft (stuckSlides gap n returns)
      exact .inr ⟨[], by simp [Ahead], by simp, short, slides⟩

theorem staleReturns {quads : List Coordinates} (stale : Stale tokens board p vars start quads) :
    ∃ n a, makeMoveReading tokens p.man n board vars start = .ok (some a) ∧ a.stop < a.start + 4 := by
  induction quads generalizing vars start with
  | nil =>
    obtain ⟨_, _, short, slides⟩ := stale
    change (readCoordinates tokens vars start).2 < start + 4 at short
    change Slides board p (readCoordinates tokens vars start).1 at slides
    by_cases legal : LegalMove board p (readCoordinates tokens vars start).1
    · exact ⟨1, _, iterationLegal rfl legal, short⟩
    · have gap : Gap tokens (readCoordinates tokens vars start).2 := by
        rcases readCases tokens vars start with ⟨q, ahead⟩ | ⟨_, gap⟩
        · rw [readWhole ahead] at short
          omega
        · exact gap
      obtain ⟨n, a, returns, starts, stops⟩ := slidesStuck gap (slidesLater legal slides)
      exact ⟨n + 1, a, (iterationIllegal rfl legal).trans returns, by omega⟩
  | cons q quads ih =>
    obtain ⟨ahead, illegal, later⟩ := staleCons.mp stale
    obtain ⟨n, a, returns, short⟩ := ih later
    exact ⟨n + 1, a, (iterationIllegal (readWhole ahead vars) illegal).trans returns, short⟩

theorem appliedTyped (tokens : Tokens) (board : Board) (p : Colour) (vars : Coordinates) :
    (∀ n a, makeMoveReading tokens p.man n board vars 0 = .ok (some a) → Typed tokens a) ↔
      ∀ quads, ¬ Stale tokens board p vars 0 quads := by
  constructor
  · intro typed quads stale
    obtain ⟨n, a, returns, short⟩ := staleReturns stale
    have one := (typed n a returns).one
    omega
  · intro never n a returns
    rcases readingTyped returns with typed | ⟨quads, stale⟩
    · exact typed
    · exact absurd stale (never quads)

-- The rejected 4 3 5 4 and then a word: 3 2 4 3 is played, which nobody typed.
def afterWord : Tokens :=
  Stream'.Seq.ofList [.integer 4,.integer 3,.integer 5,.integer 4,.word "ok"]

theorem nobodyTyped : ∃ a,
    makeMoveReading afterWord Colour.x.man 2 initializeBoard ⟨0,0,0,0⟩ 0 = .ok (some a) ∧
    a.coordinates = ⟨3,2,4,3⟩ ∧ ∀ i, ¬ Ahead afterWord i (integers a.coordinates) := by
  refine ⟨_, rfl, rfl, fun i ahead => ?_⟩
  have x1 : afterWord.get? i = some (.integer 3) := ahead 0 _ rfl
  have y1 : afterWord.get? (i + 1) = some (.integer 2) := ahead 1 _ rfl
  unfold afterWord at x1 y1
  rw [Stream'.Seq.ofList_get?] at x1 y1
  match i with
  | 0 => cases x1
  | 1 => cases y1
  | 2 => cases x1
  | 3 => cases x1
  | 4 => cases x1
  | i + 5 => cases x1

end Typed

section Malformed
variable {tokens : Tokens} {board : Board} {p : Colour} {q : Coordinates}

inductive Item where
  | quadruple (q : Coordinates)
  | word (text : String)
  deriving DecidableEq, Repr

def Item.spelled : Item → List Token
  | quadruple q => integers q
  | word text => [.word text]

def atWord (vars : Coordinates) : List Item → Coordinates
  | [] => vars
  | .quadruple q :: items => atWord (varsLeft q) items
  | .word _ :: _ => vars

theorem returnsLater {vars v : Coordinates} {start stop : Nat}
    (reads : readCoordinates tokens vars start = (v,stop)) (illegal : ¬ LegalMove board p v) :
    (∃ n a, makeMoveReading tokens p.man n board vars start = .ok (some a)) ↔
      ∃ n a, makeMoveReading tokens p.man n board (varsLeft v) stop = .ok (some a) := by
  constructor
  · rintro ⟨n, a, returns⟩
    cases n with
    | zero => cases returns
    | succ n =>
      rw [iterationIllegal reads illegal] at returns
      exact ⟨n, a, returns⟩
  · rintro ⟨n, a, returns⟩
    exact ⟨n + 1, a, (iterationIllegal reads illegal).trans returns⟩

theorem returnsPastWords {items : List Item} {start : Nat} {vars : Coordinates}
    (ahead : Ahead tokens start (items.flatMap Item.spelled ++ integers q))
    (rejected : ∀ r, .quadruple r ∈ items → ¬ LegalMove board p r) (legal : LegalMove board p q) :
    (∃ n a, makeMoveReading tokens p.man n board vars start = .ok (some a)) ↔
      (∀ text, .word text ∉ items) ∨ Slides board p (atWord vars items) := by
  induction items generalizing vars start with
  | nil =>
    have whole : Ahead tokens start (integers q) := ahead
    exact ⟨fun _ => .inl (by simp), fun _ => ⟨1, _, iterationLegal (readWhole whole vars) legal⟩⟩
  | cons item items ih =>
    rw [List.flatMap_cons, List.append_assoc, aheadAppend] at ahead
    have later : ∀ r, .quadruple r ∈ items → ¬ LegalMove board p r :=
      fun r inside => rejected r (List.mem_cons_of_mem _ inside)
    cases item with
    | quadruple r =>
      have rest : Ahead tokens (start + 4) (items.flatMap Item.spelled ++ integers q) := ahead.2
      rw [returnsLater (readWhole ahead.1 vars) (rejected r List.mem_cons_self), ih rest later]
      simp [atWord]
    | word text =>
      have gap : Gap tokens start := wordGap (aheadCons.mp ahead.1).1
      constructor
      · rintro ⟨n, a, returns⟩
        exact .inr (stuckSlides gap n returns)
      · rintro (never | slides)
        · exact absurd List.mem_cons_self (never text)
        · obtain ⟨n, a, returns, _⟩ := slidesStuck gap slides
          exact ⟨n, a, returns⟩

def pastWord : List Token :=
  [Item.quadruple ⟨4,3,5,4⟩,.word "ok"].flatMap Item.spelled ++ integers ⟨3,2,4,3⟩

theorem returnsPastOneWord : ∃ n a, makeMoveReading (Stream'.Seq.ofList pastWord) Colour.x.man n
    initializeBoard ⟨0,0,0,0⟩ 0 = .ok (some a) := by
  have rejected : ∀ r, .quadruple r ∈ [Item.quadruple ⟨4,3,5,4⟩,.word "ok"] →
      ¬ LegalMove initializeBoard .x r := by
    intro r inside
    have same : r = ⟨4,3,5,4⟩ := by simpa using inside
    subst same
    rintro ⟨_, _, man | ⟨c, n, king⟩⟩
    · exact absurd man.source (by decide)
    · have source := king.source
      cases c <;> exact absurd source (by decide)
  have ahead : Ahead (Stream'.Seq.ofList pastWord) 0 pastWord := by
    intro i t found
    rw [Nat.zero_add, Stream'.Seq.ofList_get?]
    exact found
  exact (returnsPastWords ahead rejected openingLegal).mpr (.inr ⟨by decide, 0, openingLegal⟩)

theorem wordNeverReturns : ¬ ∃ n a,
    makeMoveReading (Stream'.Seq.ofList (.word "e" :: integers ⟨3,2,4,3⟩)) Colour.x.man n
      initializeBoard ⟨0,0,0,0⟩ 0 = .ok (some a) := by
  rintro ⟨n, a, returns⟩
  have gap : Gap (Stream'.Seq.ofList (.word "e" :: integers ⟨3,2,4,3⟩)) 0 :=
    wordGap (Stream'.Seq.ofList_get? (.word "e" :: integers ⟨3,2,4,3⟩) 0)
  exact (stuckSlides gap n returns).1 (by decide)

end Malformed

end Warcaby.Reading
