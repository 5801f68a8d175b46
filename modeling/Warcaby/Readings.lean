import Mathlib.Data.List.Iterate
import Warcaby.Decimal
import Warcaby.Reading

/-! What calls of `make_move` see of one stream of tokens, iteration by iteration and call
after call. A word stays where it is for good, and x1 .. y2 of each new call begin with
whatever is on the stack. -/
namespace Warcaby.Readings
open MakeMove Rule Turn Rulebook Scanf Reading

section Readings
variable {tokens : Tokens} {vars : Coordinates} {start n : Nat}

def readings (tokens : Tokens) : Nat → Coordinates → Nat → List Coordinates × Coordinates × Nat
  | 0, vars, start => ([],vars,start)
  | n + 1, vars, start =>
    let (v,stop) := readCoordinates tokens vars start
    let (values,last) := readings tokens n (varsLeft v) stop
    (v :: values,last)

def seen (tokens : Tokens) (n : Nat) (vars : Coordinates) (start : Nat) : List Coordinates :=
  (readings tokens n vars start).1

def held (tokens : Tokens) (n : Nat) (vars : Coordinates) (start : Nat) : Coordinates :=
  (readings tokens n vars start).2.1

def stopped (tokens : Tokens) (n : Nat) (vars : Coordinates) (start : Nat) : Nat :=
  (readings tokens n vars start).2.2

theorem readingsFirst (tokens : Tokens) (n : Nat) (vars : Coordinates) (start : Nat) :
    let read := readCoordinates tokens vars start
    seen tokens (n + 1) vars start = read.1 :: seen tokens n (varsLeft read.1) read.2 ∧
      stopped tokens (n + 1) vars start = stopped tokens n (varsLeft read.1) read.2 := ⟨rfl, rfl⟩

theorem readingsNext (tokens : Tokens) (n : Nat) (vars : Coordinates) (start : Nat) :
    let read := readCoordinates tokens (held tokens n vars start) (stopped tokens n vars start)
    seen tokens (n + 1) vars start = seen tokens n vars start ++ [read.1] ∧
      held tokens (n + 1) vars start = varsLeft read.1 ∧ stopped tokens (n + 1) vars start = read.2 := by
  induction n generalizing vars start with
  | zero => exact ⟨rfl, rfl, rfl⟩
  | succ n ih =>
    obtain ⟨sees, holds, stops⟩ :=
      ih (varsLeft (readCoordinates tokens vars start).1) (readCoordinates tokens vars start).2
    exact ⟨congrArg (_ :: ·) sees, holds, stops⟩

theorem seenLength (tokens : Tokens) (n : Nat) (vars : Coordinates) (start : Nat) :
    (seen tokens n vars start).length = n := by
  induction n generalizing vars start with
  | zero => rfl
  | succ n ih =>
    rw [seen, readings]
    simp only [List.length_cons]
    rw [← seen, ih]

theorem readingSeen (tokens : Tokens) (board : Board) (p : Colour) (n : Nat) (vars : Coordinates)
    (start : Nat) :
    makeMoveReading tokens p.man n board vars start = .ok none ∧
        makeMove board p.man (seen tokens n vars start) = .ok none ∨
      ∃ a t, makeMoveReading tokens p.man n board vars start = .ok (some a) ∧
        makeMove board p.man (seen tokens n vars start) = .ok (some t) ∧
        a.board = t.board ∧ a.coordinates = t.typed := by
  induction n generalizing vars start with
  | zero => exact .inl ⟨rfl, rfl⟩
  | succ n ih =>
    rw [(readingsFirst tokens n vars start).1]
    generalize reads : readCoordinates tokens vars start = read
    obtain ⟨q, stop⟩ := read
    dsimp only
    by_cases legal : LegalMove board p q
    · obtain ⟨m, rfl, ply⟩ := (legalMovePly board p q).mp legal
      obtain ⟨t, returns, result, typed, _⟩ := makeMoveFirst ply (seen tokens n (varsLeft _) stop)
      refine .inr ⟨_, t, iterationLegal reads legal, returns, ?_, typed.symm⟩
      exact (appliedResult ply).trans result.symm
    · obtain ⟨r, passed, incorrect, same⟩ := passIllegal (illegalMove.mpr legal)
      rw [iterationIllegal reads legal]
      rcases ih (varsLeft q) stop with ⟨waits, later⟩ | ⟨a, t, returns, later, result, typed⟩
      · refine .inl ⟨waits, ?_⟩
        simp [makeMove, passed, incorrect, same, later]
      · refine .inr ⟨a, {t with output := r.output ++ t.output}, returns, ?_, result, typed⟩
        simp [makeMove, passed, incorrect, same, later]

theorem seenReturns {board : Board} {p : Colour} {t : Turn} {values : List Coordinates}
    (returns : makeMove board p.man values = .ok (some t)) (sees : values = seen tokens n vars start) :
    ∃ a, makeMoveReading tokens p.man n board vars start = .ok (some a) ∧ a.board = t.board ∧
      a.coordinates = t.typed := by
  subst sees
  rcases readingSeen tokens board p n vars start with ⟨_, waits⟩ | ⟨a, t', reads, same, result⟩
  · cases returns.symm.trans waits
  · cases returns.symm.trans same
    exact ⟨a, reads, result⟩

theorem gapReads (gap : Gap tokens start) (vars : Coordinates) :
    readCoordinates tokens vars start = (vars,start) := scanfGap gap conversions vars

theorem readingsGap (gap : Gap tokens start) (n : Nat) (vars : Coordinates) :
    readings tokens n vars start = (List.iterate varsLeft vars n,varsLeft^[n] vars,start) := by
  induction n generalizing vars with
  | zero => rfl
  | succ n ih =>
    rw [readings, gapReads gap]
    simp only [ih]
    rfl

/- Whole quadruples first; the values after those were not typed at once. -/
structure Split (tokens : Tokens) (start : Nat) (values : List Coordinates) (stop : Nat)
    (whole stale : List Coordinates) : Prop where
  values : values = whole ++ stale
  ahead : Ahead tokens start (whole.flatMap integers)
  typed : stale = [] → stop = start + 4 * whole.length
  gap : stale ≠ [] → Gap tokens stop ∧ stop < start + 4 * whole.length + 4

theorem splitNil (tokens : Tokens) (start : Nat) : Split tokens start [] start [] [] :=
  ⟨rfl, by simp [Ahead], fun _ => rfl, fun some' => absurd rfl some'⟩

theorem splitCons {q : Coordinates} {values whole stale : List Coordinates} {stop : Nat}
    (ahead : Ahead tokens start (integers q)) (split : Split tokens (start + 4) values stop whole stale) :
    Split tokens start (q :: values) stop (q :: whole) stale where
  values := by rw [split.values, List.cons_append]
  ahead := integersAhead.mpr ⟨ahead, split.ahead⟩
  typed := by
    intro none
    rw [split.typed none, List.length_cons]
    omega
  gap := by
    intro some'
    obtain ⟨gap, near⟩ := split.gap some'
    refine ⟨gap, ?_⟩
    rw [List.length_cons]
    omega

theorem readingsSplit (tokens : Tokens) (n : Nat) (vars : Coordinates) (start : Nat) :
    ∃ whole stale, Split tokens start (seen tokens n vars start) (stopped tokens n vars start)
      whole stale ∧ (whole = [] → seen tokens n vars start =
        List.iterate varsLeft (readCoordinates tokens vars start).1 n) := by
  induction n generalizing vars start with
  | zero => exact ⟨[], [], splitNil tokens start, fun _ => rfl⟩
  | succ n ih =>
    obtain ⟨sees, stops⟩ := readingsFirst tokens n vars start
    rcases readCases tokens vars start with ⟨q, ahead⟩ | ⟨short, gap⟩
    · obtain ⟨whole, stale, split, _⟩ := ih (varsLeft q) (start + 4)
      refine ⟨q :: whole, stale, ?_, fun none => absurd none (List.cons_ne_nil _ _)⟩
      rw [sees, stops, readWhole ahead]
      exact splitCons ahead split
    · have slides := readingsGap gap n (varsLeft (readCoordinates tokens vars start).1)
      refine ⟨[], seen tokens (n + 1) vars start, ⟨rfl, by simp [Ahead], fun none => ?_, fun _ => ?_⟩,
        fun _ => ?_⟩
      · rw [sees] at none
        cases none
      · rw [stops, stopped, slides]
        exact ⟨gap, short⟩
      · rw [sees, seen, slides]
        rfl

theorem seenWhole {qs : List Coordinates} (ahead : Ahead tokens start (qs.flatMap integers))
    (stack : Coordinates) :
    seen tokens qs.length stack start = qs ∧ stopped tokens qs.length stack start = start + 4 * qs.length := by
  induction qs generalizing start stack with
  | nil => exact ⟨rfl, rfl⟩
  | cons q qs ih =>
    obtain ⟨first, rest⟩ := integersAhead.mp ahead
    obtain ⟨sees, stops⟩ := readingsFirst tokens qs.length stack start
    rw [readWhole first] at sees stops
    obtain ⟨sees', stops'⟩ := ih rest (varsLeft q)
    rw [List.length_cons, sees, stops, sees', stops']
    exact ⟨rfl, by omega⟩

theorem outsideStays {v : Coordinates} (outside : OutOfRange v) (d : Nat) : varsLeft^[d] v = v := by
  have fixed : varsLeft v = v := if_pos outside
  exact Function.iterate_fixed fixed d

theorem iterateLowered {v : Coordinates} {d : Nat} (onBoard : OnBoard (varsLeft^[d] v)) :
    varsLeft^[d] v = lowered v d := by
  induction d generalizing v with
  | zero => exact (loweredZero v).symm
  | succ d ih =>
    by_cases outside : OutOfRange v
    · rw [outsideStays outside] at onBoard
      exact absurd outside (inRange onBoard)
    · rw [Function.iterate_succ_apply] at onBoard ⊢
      rw [ih onBoard, varsLeftInside outside, loweredOnce]

end Readings

section Calls
variable {tokens : Tokens} {calls : List (List Coordinates)} {stop : Nat}

def numbers (q : Coordinates) : List Int := [q.x1,q.y1,q.x2,q.y2]

-- The four variables before they are read: any `int`s.
structure Stack where
  vars : Coordinates
  fits : ∀ z ∈ numbers vars, Decimal.Fits z

def zeros : Stack := ⟨⟨0,0,0,0⟩,by decide⟩

inductive Reads (tokens : Tokens) : List (List Coordinates) → Nat → Prop where
  | none : Reads tokens [] 0
  | call {calls start} (before : Reads tokens calls start) (stack : Stack) (n : Nat) :
      Reads tokens (calls ++ [seen tokens n stack.vars start]) (stopped tokens n stack.vars start)

theorem integersLength (whole : List Coordinates) :
    (whole.flatMap integers).length = 4 * whole.length := by
  induction whole with
  | nil => rfl
  | cons q whole ih =>
    rw [List.flatMap_cons, List.length_append, ih, List.length_cons]
    simp only [integers, List.length_cons, List.length_nil]
    omega

theorem splitTyped {values more whole whole' stale' : List Coordinates} {stop' : Nat}
    (split : Split tokens 0 values stop whole []) (later : Split tokens stop more stop' whole' stale') :
    Split tokens 0 (values ++ more) stop' (whole ++ whole') stale' := by
  have here := split.typed rfl
  refine ⟨?_, ?_, fun none => ?_, fun some' => ?_⟩
  · rw [split.values, later.values, List.append_nil, List.append_assoc]
  · rw [List.flatMap_append, aheadAppend, integersLength, ← here]
    exact ⟨split.ahead, later.ahead⟩
  · rw [later.typed none, here, List.length_append]
    omega
  · obtain ⟨gap, near⟩ := later.gap some'
    refine ⟨gap, ?_⟩
    rw [List.length_append]
    omega

theorem splitStale {values whole stale : List Coordinates} (split : Split tokens 0 values stop whole stale)
    (some' : stale ≠ []) (more : List Coordinates) :
    Split tokens 0 (values ++ more) stop whole (stale ++ more) where
  values := by rw [split.values, List.append_assoc]
  ahead := split.ahead
  typed := fun none => absurd (List.append_eq_nil_iff.mp none).1 some'
  gap := fun _ => split.gap some'

-- What the first `scanf` of the call after these calls leaves in the variables.
def FirstRead (tokens : Tokens) (calls : List (List Coordinates)) (v : Coordinates) : Prop :=
  ∃ start, ∃ stack : Stack, Reads tokens calls start ∧ v = (readCoordinates tokens stack.vars start).1

/- A call that reads no whole quadruple goes through one, lowered step by step. -/
def Lowering (tokens : Tokens) (calls : List (List Coordinates)) (typed : Nat) : Prop :=
  ∀ before call after, calls = before ++ call :: after → typed ≤ before.flatten.length →
    ∃ v n, FirstRead tokens before v ∧ call = List.iterate varsLeft v n

theorem lastCall {before after : List (List Coordinates)} {call last : List Coordinates}
    (split : calls ++ [last] = before ++ call :: after) :
    before = calls ∧ call = last ∨ ∃ init, calls = before ++ call :: init := by
  rcases List.eq_nil_or_concat after with none | ⟨init, end', rest⟩
  · subst none
    obtain ⟨same, one⟩ := List.append_inj' split rfl
    exact .inl ⟨same.symm, (List.cons.inj one).1.symm⟩
  · rw [rest, List.concat_eq_append, ← List.cons_append, ← List.append_assoc] at split
    exact .inr ⟨init, (List.append_inj' split rfl).1⟩

theorem readsLast {values : List Coordinates}
    (reads : Reads tokens (calls ++ [values]) stop) :
    ∃ start, ∃ stack : Stack, Reads tokens calls start ∧
      values = seen tokens values.length stack.vars start ∧
      stop = stopped tokens values.length stack.vars start := by
  generalize all : calls ++ [values] = every at reads
  cases reads with
  | none => simp at all
  | @call calls' start before stack n =>
    obtain ⟨rfl, same⟩ := List.append_inj' all rfl
    cases same
    rw [seenLength]
    exact ⟨start, stack, before, rfl, rfl⟩

theorem readsPrefix {more : List (List Coordinates)} (reads : Reads tokens (calls ++ more) stop) :
    ∃ stop', Reads tokens calls stop' := by
  induction more using List.reverseRecOn generalizing stop with
  | nil => exact ⟨stop, by simpa using reads⟩
  | append_singleton more call ih =>
    rw [← List.append_assoc] at reads
    obtain ⟨start, _, earlier, _⟩ := readsLast reads
    exact ih earlier

theorem readsSplit (reads : Reads tokens calls stop) :
    ∃ whole stale, Split tokens 0 calls.flatten stop whole stale ∧
      Lowering tokens calls whole.length := by
  induction reads with
  | none => exact ⟨[], [], splitNil tokens 0, fun before call after none => by simp at none⟩
  | @call calls start reads stack n ih =>
    obtain ⟨whole, stale, split, lowering⟩ := ih
    have more : (calls ++ [seen tokens n stack.vars start]).flatten =
        calls.flatten ++ seen tokens n stack.vars start := by simp
    rw [more]
    by_cases typed : stale = []
    · subst typed
      obtain ⟨whole', stale', later, slides⟩ := readingsSplit tokens n stack.vars start
      refine ⟨whole ++ whole', stale', splitTyped split later, ?_⟩
      have values := congrArg List.length split.values
      rw [List.append_nil] at values
      intro before call after same late
      rw [List.length_append] at late
      rcases lastCall same with ⟨rfl, rfl⟩ | ⟨init, rfl⟩
      · have iterates := slides (List.length_eq_zero_iff.mp (by omega))
        exact ⟨_, n, ⟨start, stack, reads, rfl⟩, iterates⟩
      · rw [List.flatten_append, List.length_append, List.flatten_cons, List.length_append] at values
        have empty : call = [] := List.length_eq_zero_iff.mp (by omega)
        obtain ⟨start', earlier⟩ := readsPrefix reads
        exact ⟨_, 0, ⟨start', stack, earlier, rfl⟩, empty⟩
    · obtain ⟨gap, _⟩ := split.gap typed
      have slides := readingsGap gap n stack.vars
      rw [seen, stopped, slides]
      refine ⟨whole, _, splitStale split typed _, fun before call after same late => ?_⟩
      rcases lastCall same with ⟨rfl, rfl⟩ | ⟨init, rfl⟩
      · exact ⟨_, n, ⟨start, stack, reads, congrArg Prod.fst (gapReads gap stack.vars).symm⟩, rfl⟩
      · exact lowering before call init rfl late

theorem readsWhole
    (ahead : Ahead tokens 0 (calls.flatten.flatMap integers)) :
    Reads tokens calls (4 * calls.flatten.length) := by
  induction calls using List.reverseRecOn with
  | nil => exact .none
  | append_singleton calls call ih =>
    rw [List.flatten_append, List.flatten_singleton, List.flatMap_append, aheadAppend,
      integersLength, Nat.zero_add] at ahead
    obtain ⟨before, here⟩ := ahead
    obtain ⟨sees, stops⟩ := seenWhole here zeros.vars
    have reads := Reads.call (ih before) zeros call.length
    rw [sees, stops] at reads
    rw [List.flatten_append, List.flatten_singleton, List.length_append, Nat.mul_add]
    exact reads

theorem readsNone (reads : Reads tokens [] stop) : stop = 0 := by
  generalize none : ([] : List (List Coordinates)) = every at reads
  cases reads with
  | none => rfl
  | call => simp at none

end Calls

end Warcaby.Readings
