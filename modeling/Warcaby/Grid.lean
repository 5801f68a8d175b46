import Mathlib.Algebra.BigOperators.Fin
import Mathlib.Algebra.BigOperators.Group.Finset.Piecewise
import Mathlib.Data.List.FinRange

/-! Rectangular arrays over any cell type, addressed by signed integers as C code
does. A write outside the array changes nothing here; whether an access may
happen at all is decided by the caller through `Inside`. -/
namespace Warcaby.Grid

abbrev Table (m n : Nat) (α : Type) := Fin m → Fin n → α

section Access
variable {m n : Nat} {α : Type}

def Inside (m n : Nat) (x y : Int) : Prop := (0 ≤ x ∧ x < m) ∧ 0 ≤ y ∧ y < n
instance (x y : Int) : Decidable (Inside m n x y) := by unfold Inside; infer_instance

def get [Inhabited α] (g : Table m n α) (x y : Int) : α :=
  if h : Inside m n x y then
    g ⟨x.toNat, by unfold Inside at h; omega⟩ ⟨y.toNat, by unfold Inside at h; omega⟩
  else default

def write (g : Table m n α) (x y : Int) (value : α) : Table m n α :=
  fun i j => if (i : Int) = x ∧ (j : Int) = y then value else g i j

theorem insideCell (i : Fin m) (j : Fin n) : Inside m n i j := by
  unfold Inside; omega

theorem insideIndices {x y : Int} (inside : Inside m n x y) :
    ∃ (i : Fin m) (j : Fin n), x = i ∧ y = j := by
  unfold Inside at inside
  exact ⟨⟨x.toNat, by omega⟩, ⟨y.toNat, by omega⟩, by simp; omega, by simp; omega⟩

@[simp] theorem getCell [Inhabited α] (g : Table m n α) (i : Fin m) (j : Fin n) :
    get g i j = g i j := by
  simp [get, insideCell i j]

theorem writeCell (g : Table m n α) (x y : Int) (value : α) (i : Fin m) (j : Fin n) :
    write g x y value i j = if (i : Int) = x ∧ (j : Int) = y then value else g i j := rfl

theorem getWrite [Inhabited α] (g : Table m n α) {x y : Int} (inside : Inside m n x y)
    (value : α) (r c : Int) :
    get (write g x y value) r c = if r = x ∧ c = y then value else get g r c := by
  by_cases here : Inside m n r c
  · obtain ⟨i, j, rfl, rfl⟩ := insideIndices here
    rw [getCell, getCell, writeCell]
  · have apart : ¬ (r = x ∧ c = y) := by
      rintro ⟨rfl, rfl⟩
      exact here inside
    simp [get, here, apart]

theorem writeAgain (g : Table m n α) (x y : Int) (first second : α) :
    write (write g x y first) x y second = write g x y second := by
  funext i j
  simp only [writeCell]
  split <;> rfl

theorem writeSwap (g : Table m n α) {x y r c : Int} (apart : ¬ (x = r ∧ y = c)) (first second : α) :
    write (write g x y first) r c second = write (write g r c second) x y first := by
  funext i j
  simp only [writeCell]
  split <;> split <;> first | rfl | omega

theorem writeSame [Inhabited α] {g : Table m n α} {x y : Int} {value : α}
    (same : get g x y = value) : write g x y value = g := by
  funext i j
  rw [writeCell]
  split
  · rename_i here
    obtain ⟨rfl, rfl⟩ := here
    rw [← same, getCell]
  · rfl

end Access

/- Sums of a weight over all cells. A weight may look at the position as well
as at the value, so one lemma covers counting and ranking functions. -/
section Total
variable {m n : Nat} {α : Type}

def total (weight : Int → Int → α → Nat) (g : Table m n α) : Nat :=
  ∑ s : Fin m × Fin n, weight s.1 s.2 (g s.1 s.2)

theorem totalWrite [Inhabited α] (weight : Int → Int → α → Nat) (g : Table m n α) {x y : Int}
    (inside : Inside m n x y) (value : α) :
    total weight (write g x y value) + weight x y (get g x y) =
      total weight g + weight x y value := by
  obtain ⟨r, c, rfl, rfl⟩ := insideIndices inside
  have others : ∑ s ∈ Finset.univ.erase (r, c), weight s.1 s.2 (write g r c value s.1 s.2) =
      ∑ s ∈ Finset.univ.erase (r, c), weight s.1 s.2 (g s.1 s.2) := by
    refine Finset.sum_congr rfl (fun s member => ?_)
    have apart : ¬ ((s.1 : Int) = r ∧ (s.2 : Int) = c) := by
      rintro ⟨row, column⟩
      have same : s = (r, c) := Prod.ext (Fin.ext (by simpa using row)) (Fin.ext (by simpa using column))
      exact (Finset.mem_erase.mp member).1 same
    rw [writeCell, if_neg apart]
  have before := Finset.add_sum_erase Finset.univ
    (fun s : Fin m × Fin n => weight s.1 s.2 (g s.1 s.2)) (Finset.mem_univ (r, c))
  have after := Finset.add_sum_erase Finset.univ
    (fun s : Fin m × Fin n => weight s.1 s.2 (write g r c value s.1 s.2)) (Finset.mem_univ (r, c))
  simp only [writeCell, and_self, if_true] at before after others
  simp only [total, getCell, writeCell]
  omega

def count (p : α → Bool) (g : Table m n α) : Nat := total (fun _ _ a => if p a then 1 else 0) g

theorem countZero {p : α → Bool} {g : Table m n α} :
    count p g = 0 ↔ ∀ i j, p (g i j) = false := by
  simp [count, total]

end Total

section RowMajor
variable {m n : Nat} {α ε : Type}

def rowMajor (m n : Nat) : List (Fin m × Fin n) :=
  (List.finRange m).flatMap (fun i => (List.finRange n).map (fun j => (i, j)))

def offset (s : Fin m × Fin n) : Nat := s.1 * n + s.2

theorem offsetBound (s : Fin m × Fin n) : offset s < m * n := by
  have row : (s.1 : Nat) + 1 ≤ m := s.1.isLt
  have column : (s.2 : Nat) < n := s.2.isLt
  calc offset s < (s.1 : Nat) * n + n := by unfold offset; omega
    _ = ((s.1 : Nat) + 1) * n := by rw [Nat.succ_mul]
    _ ≤ m * n := Nat.mul_le_mul_right n row

theorem rowMajorOfFn : rowMajor m n =
    List.ofFn (fun k : Fin (m * n) => (k.divNat, k.modNat)) := by
  rw [List.ofFn_mul]
  simp only [rowMajor, List.flatMap, List.finRange, List.map_ofFn]
  congr 2
  funext i
  simp only [Function.comp_apply]
  congr 1
  funext j
  have positive : 0 < n := j.pos
  have quotient : ((i : Nat) * n + j) / n = i := by
    rw [Nat.mul_comm, Nat.mul_add_div positive, Nat.div_eq_of_lt j.isLt, Nat.add_zero]
  have remainder : ((i : Nat) * n + j) % n = j := by
    rw [Nat.mul_comm, Nat.mul_add_mod, Nat.mod_eq_of_lt j.isLt]
  exact Prod.ext (Fin.ext quotient.symm) (Fin.ext remainder.symm)

@[simp] theorem rowMajorLength : (rowMajor m n).length = m * n := by
  simp [rowMajorOfFn]

theorem rowMajorComplete (s : Fin m × Fin n) : s ∈ rowMajor m n := by
  simp [rowMajor]

theorem rowMajorOffset {k : Nat} {s : Fin m × Fin n} (found : (rowMajor m n)[k]? = some s) :
    offset s = k := by
  rw [rowMajorOfFn] at found
  obtain ⟨bound, same⟩ := List.getElem?_eq_some_iff.mp found
  rw [List.getElem_ofFn] at same
  subst same
  simpa [offset, Fin.divNat, Fin.modNat] using Nat.div_add_mod' k n

theorem rowMajorAt (s : Fin m × Fin n) : (rowMajor m n)[offset s]? = some s := by
  obtain ⟨k, bound, same⟩ := List.mem_iff_getElem.mp (rowMajorComplete s)
  have found : (rowMajor m n)[k]? = some s := by rw [List.getElem?_eq_getElem bound, same]
  rw [rowMajorOffset found, found]

def flatten (g : Table m n α) : List α := (rowMajor m n).map (fun s => g s.1 s.2)

@[simp] theorem flattenLength (g : Table m n α) : (flatten g).length = m * n := by
  simp [flatten]

theorem flattenAt (g : Table m n α) (s : Fin m × Fin n) :
    (flatten g)[offset s]? = some (g s.1 s.2) := by
  simp [flatten, rowMajorAt]

theorem flattenMember {g : Table m n α} {a : α} : a ∈ flatten g ↔ ∃ i j, g i j = a := by
  constructor
  · intro member
    obtain ⟨s, _, same⟩ := List.mem_map.mp member
    exact ⟨s.1, s.2, same⟩
  · rintro ⟨i, j, same⟩
    exact List.mem_map.mpr ⟨(i, j), rowMajorComplete _, same⟩

/- Two nested loops that overwrite every cell with the next value of a source;
the source may fail, and the first failure is the result. -/
def fillCell (read : Nat → Except ε α) (g : Table m n α) (s : Fin m × Fin n) :
    Except ε (Table m n α) := do
  let value ← read (offset s)
  pure (write g s.1 s.2 value)

def fill (read : Nat → Except ε α) (g : Table m n α) : Except ε (Table m n α) :=
  (rowMajor m n).foldlM (fillCell read) g

theorem fillCellOk {read : Nat → Except ε α} {s : Fin m × Fin n} {value : α}
    (reads : read (offset s) = .ok value) (g : Table m n α) :
    fillCell read g s = .ok (write g s.1 s.2 value) := by
  simp only [fillCell, reads, bind, Except.bind, pure, Except.pure]

theorem fillCells {read : Nat → Except ε α} {f : Nat → α} {squares : List (Fin m × Fin n)}
    (reads : ∀ s ∈ squares, read (offset s) = .ok (f (offset s))) (g : Table m n α) :
    ∃ h, squares.foldlM (fillCell read) g = .ok h ∧
      ∀ s, h s.1 s.2 = if s ∈ squares then f (offset s) else g s.1 s.2 := by
  induction squares generalizing g with
  | nil => exact ⟨g, rfl, by simp⟩
  | cons head rest ih =>
    have first := reads head List.mem_cons_self
    obtain ⟨h, filled, cells⟩ := ih (fun s inside => reads s (List.mem_cons_of_mem _ inside))
      (write g head.1 head.2 (f (offset head)))
    refine ⟨h, ?_, fun s => ?_⟩
    · rw [List.foldlM_cons, fillCellOk first]
      exact filled
    · rw [cells s, writeCell]
      by_cases same : s = head
      · subst same; simp
      · have apart : ¬ ((s.1 : Int) = head.1 ∧ (s.2 : Int) = head.2) := by
          rintro ⟨row, column⟩
          exact same (Prod.ext (Fin.ext (by simpa using row)) (Fin.ext (by simpa using column)))
        rw [if_neg apart]
        simp [same]

theorem fillOk {read : Nat → Except ε α} {f : Nat → α}
    (reads : ∀ k < m * n, read k = .ok (f k)) (g : Table m n α) :
    fill read g = .ok (fun i j => f (offset (i, j))) := by
  have everywhere : ∀ s ∈ rowMajor m n, read (offset s) = .ok (f (offset s)) :=
    fun s _ => reads _ (offsetBound s)
  obtain ⟨h, filled, cells⟩ := fillCells everywhere g
  refine filled.trans (congrArg _ ?_)
  funext i j
  simpa [rowMajorComplete] using cells (i, j)

theorem fillError {read : Nat → Except ε α} {f : Nat → α} {first : Nat} {error : ε}
    (inside : first < m * n) (reads : ∀ k < first, read k = .ok (f k))
    (fails : read first = .error error) (g : Table m n α) : fill read g = .error error := by
  have bound : first < (rowMajor m n).length := by simpa using inside
  have split : rowMajor m n = (rowMajor m n).take first ++
      (rowMajor m n)[first] :: (rowMajor m n).drop (first + 1) := by
    rw [← List.drop_eq_getElem_cons bound, List.take_append_drop]
  have before : ∀ s ∈ (rowMajor m n).take first, read (offset s) = .ok (f (offset s)) := by
    intro s member
    obtain ⟨k, small, same⟩ := List.mem_take_iff_getElem.mp member
    have found : (rowMajor m n)[k]? = some s := by
      rw [List.getElem?_eq_getElem (by omega), same]
    rw [rowMajorOffset found]
    exact reads k (by omega)
  obtain ⟨h, filled, _⟩ := fillCells before g
  have here : offset (rowMajor m n)[first] = first :=
    rowMajorOffset (List.getElem?_eq_getElem bound)
  unfold fill
  rw [split, List.foldlM_append, filled]
  simp only [List.foldlM_cons, fillCell, here, fails, bind, Except.bind]

theorem totalRowMajor (weight : Int → Int → α → Nat) (g : Table m n α) :
    total weight g = ((rowMajor m n).map (fun s => weight s.1 s.2 (g s.1 s.2))).sum := by
  rw [rowMajorOfFn, List.map_ofFn, List.sum_ofFn, total]
  exact (Equiv.sum_comp finProdFinEquiv.symm
    (fun s : Fin m × Fin n => weight s.1 s.2 (g s.1 s.2))).symm

theorem countFrom (p : α → Bool) (g : Table m n α) (squares : List (Fin m × Fin n)) (seen : Nat) :
    squares.foldl (fun seen s => if p (g s.1 s.2) then seen + 1 else seen) seen =
      seen + (squares.map (fun s => if p (g s.1 s.2) then 1 else 0)).sum := by
  induction squares generalizing seen with
  | nil => rfl
  | cons head rest ih =>
    rw [List.foldl_cons, ih, List.map_cons, List.sum_cons]
    split <;> omega

theorem countLoop (p : α → Bool) (g : Table m n α) :
    (rowMajor m n).foldl (fun seen s => if p (g s.1 s.2) then seen + 1 else seen) 0 =
      count p g := by
  rw [countFrom, Nat.zero_add, count, totalRowMajor]

end RowMajor
end Warcaby.Grid
