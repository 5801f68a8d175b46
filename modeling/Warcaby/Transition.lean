import Mathlib.Data.List.Basic
import Mathlib.Data.List.Forall2

/-! Labelled machines, their finite runs, invariants and simulations. Nothing here
depends on what the states or labels are. -/
namespace Warcaby.Transition

structure Machine (σ α : Type) where
  start : σ → Prop
  step : σ → α → σ → Prop

inductive Run {σ α : Type} (M : Machine σ α) : List α → σ → Prop where
  | start {s} (initial : M.start s) : Run M [] s
  | step {labels s a t} (before : Run M labels s) (next : M.step s a t) : Run M (labels ++ [a]) t

def Reachable {σ α : Type} (M : Machine σ α) (s : σ) : Prop := ∃ labels, Run M labels s

section Invariants
variable {σ α : Type} {M : Machine σ α}

theorem runInvariant {P : σ → Prop} (initial : ∀ s, M.start s → P s)
    (preserved : ∀ s a t, P s → M.step s a t → P t) {labels s} (run : Run M labels s) : P s := by
  induction run with
  | start first => exact initial _ first
  | step before next ih => exact preserved _ _ _ ih next

theorem runSplit {labels s} {pre : List α} {a : α} {post : List α} (run : Run M labels s)
    (split : labels = pre ++ a :: post) :
    ∃ before after, Run M pre before ∧ M.step before a after := by
  induction run generalizing post with
  | start => simp at split
  | @step labels s b t before next ih =>
    rcases List.eq_nil_or_concat post with none | ⟨inner, last, rest⟩
    · subst none
      obtain ⟨rfl, same⟩ := List.append_inj' split rfl
      cases same
      exact ⟨s, t, before, next⟩
    · subst rest
      have shorter : labels = pre ++ a :: inner := by
        rw [List.concat_eq_append, ← List.cons_append, ← List.append_assoc] at split
        exact (List.append_inj' split rfl).1
      exact ih shorter

/- Steps that are charged lower a potential, and no step raises it: a run has at most
as many charged steps as the potential it starts with. -/
theorem runPotential {potential : σ → Nat} {charged : α → Bool} {bound : Nat}
    (initial : ∀ s, M.start s → potential s ≤ bound)
    (pays : ∀ s a t, M.step s a t → potential t + (if charged a then 1 else 0) ≤ potential s)
    {labels s} (run : Run M labels s) : potential s + labels.countP charged ≤ bound := by
  induction run with
  | start first => simpa using initial _ first
  | @step labels s a t before next ih =>
    have paid := pays s a t next
    have count : (labels ++ [a]).countP charged =
        labels.countP charged + (if charged a then 1 else 0) := by
      simp [List.countP_append, List.countP_singleton]
    omega

end Invariants

inductive Steps {τ β : Type} (A : Machine τ β) : τ → List β → τ → Prop where
  | nil (t) : Steps A t [] t
  | cons {t b u labels w} (next : A.step t b u) (rest : Steps A u labels w) :
      Steps A t (b :: labels) w

theorem stepsAppend {τ β : Type} {A : Machine τ β} {t u w : τ} {first later : List β}
    (steps : Steps A t first u) (more : Steps A u later w) : Steps A t (first ++ later) w := by
  induction steps with
  | nil => exact more
  | cons next _ ih => exact .cons next (ih more)

theorem stepsOne {τ β : Type} {A : Machine τ β} {t u : τ} {b : β} (next : A.step t b u) :
    Steps A t [b] u := .cons next (.nil u)

theorem stepsSplit {τ β : Type} {A : Machine τ β} {t w : τ} {first later : List β}
    (steps : Steps A t (first ++ later) w) : ∃ u, Steps A t first u ∧ Steps A u later w := by
  induction first generalizing t with
  | nil => exact ⟨t, .nil t, steps⟩
  | cons b first ih =>
    cases steps with
    | cons next rest =>
      obtain ⟨u, begins, ends⟩ := ih rest
      exact ⟨u, .cons next begins, ends⟩

theorem runFrom {τ β : Type} {A : Machine τ β} {labels : List β} {t : τ} (run : Run A labels t) :
    ∃ first, A.start first ∧ Steps A first labels t := by
  induction run with
  | @start s initial => exact ⟨s, initial, .nil s⟩
  | step _ next ih =>
    obtain ⟨first, initial, steps⟩ := ih
    exact ⟨first, initial, stepsAppend steps (stepsOne next)⟩

def doAll {σ α γ : Type} (act : σ → α → Option (γ × σ)) (s : σ) :
    List α → Option (List (α × γ) × σ)
  | [] => some ([],s)
  | a :: rest => do
    let (made,next) ← act s a
    let (labels,last) ← doAll act next rest
    some ((a,made) :: labels,last)

theorem doAllSteps {σ α γ : Type} {act : σ → α → Option (γ × σ)} {M : Machine σ (α × γ)}
    (does : ∀ s a made t, act s a = some (made,t) → M.step s (a,made) t) {actions : List α} {s t : σ}
    {labels : List (α × γ)} (happen : doAll act s actions = some (labels,t)) : Steps M s labels t := by
  induction actions generalizing s labels with
  | nil =>
    cases Option.some.inj happen
    exact .nil _
  | cons a rest ih =>
    simp only [doAll, Option.bind_eq_bind, Option.bind_eq_some_iff] at happen
    obtain ⟨⟨made, next⟩, first, ⟨later, last⟩, others, same⟩ := happen
    cases Option.some.inj same
    exact .cons (does s a made next first) (ih others)

theorem comesToRest {τ β : Type} {A : Machine τ β} {P : τ → Prop} {rank : τ → Nat}
    {allowed : β → Prop}
    (goes : ∀ t, P t → rank t ≠ 0 → ∃ b u, allowed b ∧ A.step t b u ∧ P u ∧ rank u < rank t)
    {t : τ} (holds : P t) :
    ∃ labels u, Steps A t labels u ∧ (∀ b ∈ labels, allowed b) ∧ P u ∧ rank u = 0 := by
  induction measure : rank t using Nat.strongRecOn generalizing t with
  | ind n ih =>
    by_cases rest : rank t = 0
    · exact ⟨[], t, .nil t, by simp, holds, rest⟩
    · obtain ⟨b, u, fine, next, holds', lower⟩ := goes t holds rest
      obtain ⟨labels, w, steps, all, last⟩ := ih (rank u) (measure ▸ lower) holds' rfl
      exact ⟨b :: labels, w, .cons next steps, List.forall_mem_cons.mpr ⟨fine, all⟩, last⟩

theorem boundedRest {τ β : Type} {A : Machine τ β} {allowed : β → Prop} {bound : Nat} {t : τ}
    (bounded : ∀ labels u, Steps A t labels u → (∀ b ∈ labels, allowed b) → labels.length ≤ bound) :
    ∃ labels u, Steps A t labels u ∧ (∀ b ∈ labels, allowed b) ∧ ∀ b w, allowed b → ¬ A.step u b w := by
  induction bound generalizing t with
  | zero =>
    refine ⟨[], t, .nil t, by simp, fun b w fine next => ?_⟩
    have long := bounded [b] w (stepsOne next) (by simpa using fine)
    simp at long
  | succ bound ih =>
    by_cases rest : ∀ b w, allowed b → ¬ A.step t b w
    · exact ⟨[], t, .nil t, by simp, rest⟩
    · push Not at rest
      obtain ⟨b, u, fine, next⟩ := rest
      obtain ⟨labels, w, steps, all, last⟩ := ih (t := u) (fun labels w steps all => by
        have long := bounded (b :: labels) w (.cons next steps) (List.forall_mem_cons.mpr ⟨fine, all⟩)
        simpa using long)
      exact ⟨b :: labels, w, .cons next steps, List.forall_mem_cons.mpr ⟨fine, all⟩, last⟩

/- A forward simulation: `view` lists what the abstract machine does for one label
of the concrete one, nothing for a step that stutters. -/
structure Simulation {σ α τ β : Type} (C : Machine σ α) (A : Machine τ β)
    (related : List α → σ → τ → Prop) (view : α → List β) : Prop where
  start : ∀ s, C.start s → ∃ t, A.start t ∧ related [] s t
  step : ∀ labels s a s' t, related labels s t → C.step s a s' →
    ∃ t', Steps A t (view a) t' ∧ related (labels ++ [a]) s' t'

section Simulations
variable {σ α τ β : Type} {C : Machine σ α} {A : Machine τ β}

theorem runSteps {t u : τ} {done labels : List β} (run : Run A done t) (steps : Steps A t labels u) :
    Run A (done ++ labels) u := by
  induction steps generalizing done with
  | nil => simpa using run
  | cons next rest ih => simpa using ih (.step run next)

theorem simulatedRun {related : List α → σ → τ → Prop} {view : α → List β}
    (simulation : Simulation C A related view) {labels s} (run : Run C labels s) :
    ∃ t, Run A (labels.flatMap view) t ∧ related labels s t := by
  induction run with
  | start first =>
    obtain ⟨t, begins, matched⟩ := simulation.start _ first
    exact ⟨t, .start begins, matched⟩
  | step before next ih =>
    obtain ⟨t, abstract, matched⟩ := ih
    obtain ⟨t', steps, after⟩ := simulation.step _ _ _ _ _ matched next
    exact ⟨t', by simpa using runSteps abstract steps, after⟩

/- Two machines in lockstep: as long as the labels of the first are allowed, the
second has a run with matching labels to a related state. -/
theorem matchedRun {related : σ → τ → Prop} {matched : α → β → Prop} {allowed : α → Prop}
    (initial : ∀ s, C.start s → ∃ t, A.start t ∧ related s t)
    (follows : ∀ s t a s', related s t → allowed a → C.step s a s' →
      ∃ b t', A.step t b t' ∧ matched a b ∧ related s' t')
    {labels s} (run : Run C labels s) (all : ∀ a ∈ labels, allowed a) :
    ∃ labels' t, Run A labels' t ∧ List.Forall₂ matched labels labels' ∧ related s t := by
  induction run with
  | start first =>
    obtain ⟨t, begins, same⟩ := initial _ first
    exact ⟨[], t, .start begins, .nil, same⟩
  | @step labels s a s' before next ih =>
    obtain ⟨done, t, other, pairs, same⟩ := ih (fun b member => all b (by simp [member]))
    obtain ⟨b, t', moves, pair, same'⟩ := follows s t a s' same (all a (by simp)) next
    exact ⟨done ++ [b], t', .step other moves, List.rel_append pairs (.cons pair .nil), same'⟩

end Simulations
end Warcaby.Transition
