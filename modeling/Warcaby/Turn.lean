import Warcaby.Verdict

/-! A whole call of `make_move`. It returns at the first typed quadruple that spells
a legal ply, with that ply performed on the board it was given; every quadruple
before it left no trace. A call that has seen no such quadruple still waits. -/
namespace Warcaby.Turn
open MakeMove Rule

def Illegal (board : Board) (player : Byte) (typed : Coordinates) : Prop :=
  ∀ m : Ply, m.typed = typed → ¬ Legal board player m

theorem typedVars {m n : Ply} (same : m.typed = n.typed) : m.vars = n.vars := by
  simp only [Ply.typed, Ply.vars, Coordinates.mk.injEq] at same ⊢
  omega

theorem sameDiagonal {m n : Ply} (left : Diagonal m) (right : Diagonal n)
    (same : n.typed = m.typed) : n = m.jumping n.jumped := by
  have first := alongOfVars left
  have second := alongOfVars right
  rw [typedVars same] at second
  have jumping : (Ply.along m.vars m.jumped).jumping n.jumped = Ply.along m.vars n.jumped := rfl
  rw [first] at jumping
  exact second.symm.trans jumping.symm

theorem legalUnique {board : Board} {player : Byte} {m n : Ply} (left : Legal board player m)
    (right : Legal board player n) (same : m.typed = n.typed) : m = n := by
  have along := sameDiagonal right.diagonal left.diagonal same
  have first : Passage board (n.jumping m.jumped) := along ▸ left.passage
  have second : Passage board (n.jumping n.jumped) := right.passage
  rw [passageUnique first second] at along
  exact along

theorem passLegal {board : Board} {player : Byte} {m : Ply} (legal : Legal board player m) :
    pass board player m.typed = performed board m := by
  rcases passVerdict board player m.typed with ⟨n, same, other, performs⟩ | ⟨never, _⟩
  · rw [performs, legalUnique other legal same]
  · exact absurd legal (never m rfl)

theorem passIllegal {board : Board} {player : Byte} {typed : Coordinates}
    (illegal : Illegal board player typed) : Refuses board (pass board player typed) := by
  rcases passVerdict board player typed with ⟨m, same, legal, _⟩ | ⟨_, refuses⟩
  · exact absurd legal (illegal m same)
  · exact refuses

/- `Returned board player inputs t m`: the call on `inputs` returned `t`, having
performed `m` after rejecting everything typed before it. -/
structure Returned (board : Board) (player : Byte) (inputs : List Coordinates) (t : Turn)
    (m : Ply) : Prop where
  legal : Legal board player m
  result : t.board = m.result board
  typed : t.typed = m.typed
  split : ∃ before, inputs = before ++ t.typed :: t.rest ∧ ∀ q ∈ before, Illegal board player q

theorem makeMoveVerdict (board : Board) (player : Byte) (inputs : List Coordinates) :
    (∃ t m, makeMove board player inputs = .ok (some t) ∧ Returned board player inputs t m) ∨
    (makeMove board player inputs = .ok none ∧ ∀ q ∈ inputs, Illegal board player q) := by
  induction inputs with
  | nil => exact .inr ⟨rfl, by simp⟩
  | cons typed rest ih =>
    rcases passVerdict board player typed with ⟨m, rfl, legal, performs⟩ | ⟨illegal, refuses⟩
    · refine .inl ⟨⟨m.result board,m.typed,rest,[.prompt,.handOver]⟩, m, ?_,
        legal, rfl, rfl, [], rfl, by simp⟩
      simp only [makeMove, performs, performed, okBind]
      rfl
    · obtain ⟨r, passed, incorrect, same⟩ := refuses
      rcases ih with ⟨t, m, later, returned⟩ | ⟨later, illegals⟩
      · obtain ⟨legal, board', typed', before, split, rejections⟩ := returned
        refine .inl ⟨{t with output := r.output ++ t.output}, m, ?_, legal, board', typed',
          typed :: before, by simp [split], ?_⟩
        · simp [makeMove, passed, incorrect, same, later]
        · intro q member
          rcases List.mem_cons.mp member with rfl | inside
          · exact illegal
          · exact rejections q inside
      · refine .inr ⟨?_, ?_⟩
        · simp [makeMove, passed, incorrect, same, later]
        · intro q member
          rcases List.mem_cons.mp member with rfl | inside
          · exact illegal
          · exact illegals q inside

theorem makeMoveReturned {board : Board} {player : Byte} {inputs : List Coordinates} {t : Turn}
    (returns : makeMove board player inputs = .ok (some t)) :
    ∃ m, Returned board player inputs t m := by
  rcases makeMoveVerdict board player inputs with ⟨u, m, same, returned⟩ | ⟨waits, _⟩
  · rw [returns] at same
    cases same
    exact ⟨m, returned⟩
  · rw [returns] at waits
    cases waits

theorem makeMoveLegal {board : Board} {player : Byte} {before : List Coordinates} {m : Ply}
    (rejections : ∀ q ∈ before, Illegal board player q) (legal : Legal board player m)
    (rest : List Coordinates) :
    ∃ t, makeMove board player (before ++ m.typed :: rest) = .ok (some t) ∧
      t.board = m.result board ∧ t.typed = m.typed ∧ t.rest = rest := by
  induction before with
  | nil =>
    refine ⟨⟨m.result board,m.typed,rest,[.prompt,.handOver]⟩, ?_, rfl, rfl, rfl⟩
    simp only [List.nil_append, makeMove, passLegal legal, performed, okBind]
    rfl
  | cons typed before ih =>
    obtain ⟨t, later, board', typed', rest'⟩ :=
      ih (fun q inside => rejections q (List.mem_cons_of_mem _ inside))
    obtain ⟨r, passed, incorrect, same⟩ := passIllegal (rejections typed List.mem_cons_self)
    refine ⟨{t with output := r.output ++ t.output}, ?_, board', typed', rest'⟩
    simp [makeMove, passed, incorrect, same, later]

theorem makeMoveFirst {board : Board} {player : Byte} {m : Ply} (legal : Legal board player m)
    (rest : List Coordinates) :
    ∃ t, makeMove board player (m.typed :: rest) = .ok (some t) ∧
      t.board = m.result board ∧ t.typed = m.typed ∧ t.rest = rest := by
  have rejections : ∀ q ∈ ([] : List Coordinates), Illegal board player q := by simp
  exact makeMoveLegal rejections legal rest

theorem makeMoveNoFault (board : Board) (player : Byte) (inputs : List Coordinates) :
    ∃ out, makeMove board player inputs = .ok out := by
  rcases makeMoveVerdict board player inputs with ⟨t, _, returns, _⟩ | ⟨waits, _⟩
  · exact ⟨some t, returns⟩
  · exact ⟨none, waits⟩

def FirstLegal (board : Board) (player : Byte) (inputs : List Coordinates)
    (property : Ply → Prop) : Prop :=
  ∃ before m rest, inputs = before ++ Ply.typed m :: rest ∧
    (∀ q ∈ before, Illegal board player q) ∧ Legal board player m ∧ property m

/- A law of returned calls that only some plies break holds of a call exactly when its
first legal quadruple does not spell one of these. -/
theorem callLaw {board : Board} {player : Byte} {inputs : List Coordinates} {law : Turn → Prop}
    {breaks : Ply → Prop}
    (exactly : ∀ t m, Returned board player inputs t m → (law t ↔ ¬ breaks m)) :
    (∀ t, makeMove board player inputs = .ok (some t) → law t) ↔
      ¬ FirstLegal board player inputs breaks := by
  constructor
  · rintro holds ⟨before, m, rest, rfl, rejections, legal, broken⟩
    obtain ⟨t, returns, result, typed, later⟩ := makeMoveLegal rejections legal rest
    have returned : Returned board player (before ++ m.typed :: rest) t m :=
      ⟨legal, result, typed, before, by rw [typed, later], rejections⟩
    exact (exactly t m returned).mp (holds t returns) broken
  · intro never t returns
    obtain ⟨m, returned⟩ := makeMoveReturned returns
    obtain ⟨before, split, rejections⟩ := returned.split
    refine (exactly t m returned).mpr (fun broken => never ?_)
    exact ⟨before, m, t.rest, returned.typed ▸ split, rejections, returned.legal, broken⟩

end Warcaby.Turn
