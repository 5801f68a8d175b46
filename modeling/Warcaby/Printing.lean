import Warcaby.MakeMove
import Warcaby.Texts

/-! `print_board`, byte by byte. Row and column labels are the numbers that `make_move`
reads, and the text gives back the board it was printed from, whatever bytes it holds. -/
namespace Warcaby.Printing
open Texts MakeMove

-- `%d` of a number that is not negative
def decimal (n : Nat) : List Byte := (Nat.toDigits 10 n).map (fun c => c.toNat.toUInt8)

def newline : List Byte := utf8 "\n"

def header : List Byte :=
  utf8 "   " ++ (List.finRange 8).flatMap (fun k => utf8 "  y" ++ decimal (k + 1) ++ utf8 " ") ++
    newline

def separator : List Byte :=
  utf8 "   +" ++ (List.finRange 8).flatMap (fun _ => utf8 "----+") ++ newline

def row (board : Board) (i : Fin 8) : List Byte :=
  utf8 "x" ++ decimal (i + 1) ++ utf8 " |" ++
    (List.finRange 8).flatMap (fun j => utf8 " " ++ [board i j] ++ utf8 "  |") ++ newline

def printBoard (board : Board) : List Byte :=
  header ++ separator ++ (List.finRange 8).flatMap (fun i => row board i ++ separator)

theorem digitByte {c : Char} (digit : c.isDigit) : 48 ≤ c.toNat ∧ c.toNat ≤ 57 := by
  simp only [Char.isDigit, Bool.and_eq_true, decide_eq_true_eq] at digit
  exact digit

theorem decimalByte {n : Nat} {c : Char} (inside : c ∈ Nat.toDigits 10 n) :
    48 ≤ c.toNat ∧ c.toNat.toUInt8.toNat = c.toNat := by
  have range := digitByte (Nat.isDigit_of_mem_toDigits (by decide) (by decide) inside)
  exact ⟨range.1, Nat.mod_eq_of_lt (by omega)⟩

theorem decimalDigits {n : Nat} {b : Byte} (member : b ∈ decimal n) : 48 ≤ b.toNat := by
  obtain ⟨c, inside, rfl⟩ := List.mem_map.mp member
  obtain ⟨least, same⟩ := decimalByte inside
  rwa [same]

theorem decimalUnique {n m : Nat} (same : decimal n = decimal m) : n = m := by
  have back (k : Nat) : (decimal k).map (fun b => Char.ofNat b.toNat) = Nat.toDigits 10 k := by
    rw [decimal, List.map_map]
    refine (List.map_congr_left (fun c inside => ?_)).trans (List.map_id _)
    simp [(decimalByte inside).2]
  rw [← Nat.ofDigitChars_ten_toDigits (n := n), ← back, same, back, Nat.ofDigitChars_ten_toDigits]

/- The same text with a place for every cell. -/
abbrev Form := List (Slot (Fin 8 × Fin 8) Byte)

def rowForm (i : Fin 8) : Form :=
  plain (utf8 "x" ++ decimal (i + 1) ++ utf8 " |") ++
    (List.finRange 8).flatMap (fun j => plain (utf8 " ") ++ [.place (i,j)] ++ plain (utf8 "  |")) ++
    plain newline

def boardForm : Form :=
  plain (header ++ separator) ++ (List.finRange 8).flatMap (fun i => rowForm i ++ plain separator)

theorem printForm (board : Board) : printBoard board = filled boardForm (fun s => board s.1 s.2) := by
  simp [printBoard, boardForm, rowForm, row]

def rowStart (i : Fin 8) : Nat := 89 + 90 * i
def column (j : Fin 8) : Nat := 5 + 5 * j

theorem formLength : boardForm.length = 809 := by decide +kernel

theorem formPlaces : ∀ s : Fin 8 × Fin 8,
    boardForm[rowStart s.1 + column s.2]? = some (.place s) := by decide +kernel

def rowLabel (x : Nat) : List Byte := utf8 "x" ++ decimal x
def columnLabel (y : Nat) : List Byte := utf8 "y" ++ decimal y

theorem rowReadings : ∀ i : Fin 8,
    readings boardForm (rowLabel (i + 1)) = [rowStart i] ∧
    (plain (rowLabel (i + 1)) : Form) <+: boardForm.drop (rowStart i) := by decide +kernel

theorem columnReadings : ∀ j : Fin 8,
    readings boardForm (columnLabel (j + 1)) = [column j] ∧
    (plain (columnLabel (j + 1)) : Form) <+: boardForm.drop (column j) := by decide +kernel

section Reading
variable {board other : Board} {text : List Byte} {k place : Nat}

@[simp] theorem printLength (board : Board) : (printBoard board).length = 809 := by
  rw [printForm, filledLength, formLength]

theorem printCell (board : Board) (i j : Fin 8) :
    (printBoard board)[rowStart i + column j]? = some (board i j) := by
  rw [printForm]
  exact filledAt (formPlaces (i,j))

theorem printUnique (same : printBoard board = printBoard other) : board = other := by
  funext i j
  have cells := printCell board i j
  rw [same, printCell] at cells
  exact (Option.some.inj cells).symm

theorem printedOnce (nonempty : text ≠ []) (once : readings boardForm text = [place])
    (there : (plain text : Form) <+: boardForm.drop place) :
    text <+: (printBoard board).drop k ↔ k = place := by
  rw [printForm]
  constructor
  · intro reads
    have found := readsThere nonempty reads
    rw [once] at found
    exact List.mem_singleton.mp found
  · rintro rfl
    exact readsPlain there

theorem boardPrinted (board : Board) :
    (printBoard board).length = 809 ∧
    (∀ other, printBoard other = printBoard board → other = board) ∧
    ∀ i j : Fin 8, ∃ line below value,
      (∀ k, rowLabel (i + 1) <+: (printBoard board).drop k ↔ k = line) ∧
      (∀ k, columnLabel (j + 1) <+: (printBoard board).drop k ↔ k = below) ∧
      (printBoard board)[line + below]? = some value ∧
      load board ((i + 1 : Nat) - 1) ((j + 1 : Nat) - 1) = .ok value := by
  refine ⟨printLength board, fun other same => printUnique same, fun i j => ?_⟩
  obtain ⟨oneRow, row⟩ := rowReadings i
  obtain ⟨oneColumn, column'⟩ := columnReadings j
  have rowText : rowLabel (i + 1) ≠ [] := List.append_ne_nil_of_left_ne_nil (by decide) _
  have columnText : columnLabel (j + 1) ≠ [] := List.append_ne_nil_of_left_ne_nil (by decide) _
  refine ⟨rowStart i, column j, board i j, fun k => printedOnce rowText oneRow row,
    fun k => printedOnce columnText oneColumn column', printCell board i j, ?_⟩
  simp [Grid.insideCell]

end Reading
end Warcaby.Printing
