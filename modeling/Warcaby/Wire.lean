import Warcaby.Tlv

/-! The two boundaries of the wire format. The sender measures a board with `strlen`,
the decoder trusts the length byte, and the store reads 64 bytes whatever came:
what fits is decided by the terminator that `tlv_decode` appends. -/
namespace Warcaby.Wire
open ByteStream Tlv
open Grid (flatten)

section Accepted
variable {chunk : Chunk} {data : List Byte}

theorem cellReads {size : Nat} : (∀ i j : Fin 8, (i : Nat) * 8 + j < size) ↔ 64 ≤ size := by
  constructor
  · intro reads
    exact reads 7 7
  · intro enough i j
    have row := i.isLt
    have column := j.isLt
    omega

theorem storeReads (board : Board) :
    (∃ result, setBoardToBuffer board data = .ok result) ↔ 64 ≤ data.length := by
  constructor
  · rintro ⟨result, stored⟩
    exact (setBoardDefined.mp stored).1
  · intro enough
    exact ⟨_, setBoardEnough enough board⟩

theorem acceptedReads (accepted : tlvDecode chunk.bytes chunk.bytes.length = some data) :
    data.length = (chunk.bytes.getD 1 nul).toNat + 1 ∧
    ((∀ i j : Fin 8, (i : Nat) * 8 + j < data.length) ↔ 63 ≤ (chunk.bytes.getD 1 nul).toNat) ∧
    (∀ board, (∃ result, setBoardToBuffer board data = .ok result) ↔
      63 ≤ (chunk.bytes.getD 1 nul).toNat) := by
  have length := decodedLength (decoded.mp accepted)
  refine ⟨length, ?_, fun board => ?_⟩
  · rw [cellReads, length]
    omega
  · rw [storeReads, length]
    omega

def shortest : Chunk := ⟨0x01 :: 63 :: List.replicate 63 blank,by decide⟩

theorem acceptedReadsShortest :
    ∃ result, setBoardToBuffer initializeBoard (List.replicate 63 blank ++ [nul]) = .ok result := by
  have accepted : tlvDecode shortest.bytes shortest.bytes.length =
      some (List.replicate 63 blank ++ [nul]) := rfl
  have reads := acceptedReads accepted
  exact (reads.2.2 initializeBoard).mpr (by decide)

def headerOnly : Chunk := ⟨[0x01,0],by decide⟩

theorem headerOnlyReads : tlvDecode headerOnly.bytes headerOnly.bytes.length = some [nul] ∧
    ¬ (∀ i j : Fin 8, (i : Nat) * 8 + j < [nul].length) ∧
    setBoardToBuffer initializeBoard [nul] = .error (.pastEnd 1) :=
  ⟨rfl, by decide, rfl⟩

end Accepted

section Verdicts
variable {chunk : Chunk}

def payload (chunk : Chunk) : List Byte := chunk.bytes.drop 2

def Accepted (chunk : Chunk) : Prop := ∃ data, tlvDecode chunk.bytes chunk.bytes.length = some data

def Refused (chunk : Chunk) : Prop := tlvDecode chunk.bytes chunk.bytes.length = none
instance (chunk) : Decidable (Refused chunk) := by unfold Refused; infer_instance

structure Delivers (chunk : Chunk) (board : Board) : Prop where
  accepted : Accepted chunk
  enough : 63 ≤ (payload chunk).length
  board : board = boardOfBytes (payload chunk)

structure Overruns (chunk : Chunk) : Prop where
  accepted : Accepted chunk
  short : (payload chunk).length < 63

theorem refusedNotAccepted (refused : Refused chunk) : ¬ Accepted chunk := by
  rintro ⟨data, accepted⟩
  exact Option.some_ne_none data (accepted.symm.trans refused)

theorem acceptedPayload (accepted : Accepted chunk) :
    tlvDecode chunk.bytes chunk.bytes.length = some (payload chunk ++ [nul]) := by
  obtain ⟨data, ok⟩ := accepted
  have value := (decoded.mp ok).value
  rw [List.take_of_length_le (by simp)] at value
  rw [ok, value, payload]

-- The terminator is also what `boardOfBytes` reads past the end.
theorem boardOfTerminated (bytes : List Byte) : boardOfBytes (bytes ++ [nul]) = boardOfBytes bytes := by
  funext i j
  unfold boardOfBytes
  rcases Nat.lt_or_ge (Grid.offset (i, j)) bytes.length with inside | outside
  · simp [List.getD, List.getElem?_append_left inside]
  · simp only [List.getD, List.getElem?_append_right outside, List.getElem?_eq_none outside]
    cases Grid.offset (i, j) - bytes.length <;> rfl

theorem storeDelivered {board : Board} (delivers : Delivers chunk board) (old : Board)
    (buffer : List Byte) :
    storeFrame old (overwrite buffer chunk.bytes) chunk.bytes.length = some (.ok board) := by
  have enough := delivers.enough
  rw [storeReceived, storeFrame, acceptedPayload delivers.accepted]
  change some (setBoardToBuffer old (payload chunk ++ [nul])) = _
  rw [setBoardEnough (by simp; omega), boardOfTerminated, delivers.board]

theorem storeRefused (refused : Refused chunk) (old : Board) (buffer : List Byte) :
    storeFrame old (overwrite buffer chunk.bytes) chunk.bytes.length = none := by
  rw [storeReceived, storeFrame, refused]
  rfl

theorem storeOverrun (overruns : Overruns chunk) (old : Board) (buffer : List Byte) :
    ∃ fault, storeFrame old (overwrite buffer chunk.bytes) chunk.bytes.length =
      some (.error fault) := by
  have short := overruns.short
  rw [storeReceived, storeFrame, acceptedPayload overruns.accepted]
  refine ⟨.pastEnd (payload chunk ++ [nul]).length, ?_⟩
  exact congrArg some (setBoardShort (by simp; omega) old)

theorem chunkVerdict (chunk : Chunk) :
    Refused chunk ∨ Overruns chunk ∨ ∃ board, Delivers chunk board := by
  cases ok : tlvDecode chunk.bytes chunk.bytes.length with
  | none => exact .inl ok
  | some data =>
    rcases Nat.lt_or_ge (payload chunk).length 63 with short | enough
    · exact .inr (.inl ⟨⟨data, ok⟩, short⟩)
    · exact .inr (.inr ⟨_, ⟨data, ok⟩, enough, rfl⟩)

end Verdicts

section Sent
variable {board : Board}

theorem strlenCells {n : Nat} (small : n ≤ 64) : n ≤ strlen (flatten board) ↔
    ∀ i j : Fin 8, (i : Nat) * 8 + j < n → board i j ≠ nul := by
  rw [strlenAtLeast]
  constructor
  · intro ⟨_, clean⟩ i j early zero
    have cell := Grid.flattenAt board (i, j)
    rw [zero] at cell
    exact clean _ early cell
  · intro clean
    refine ⟨by simpa using small, fun k early zero => ?_⟩
    have inside : k < (Grid.rowMajor 8 8).length := by simp; omega
    obtain ⟨s, found⟩ : ∃ s, (Grid.rowMajor 8 8)[k]? = some s := ⟨_, List.getElem?_eq_getElem inside⟩
    have place := Grid.rowMajorOffset found
    have cell := Grid.flattenAt board s
    rw [place, zero] at cell
    refine clean s.1 s.2 ?_ (Option.some.inj cell).symm
    have offset : (s.1 : Nat) * 8 + s.2 = k := place
    omega

theorem storedWhole (long : 63 ≤ strlen (flatten board)) (old : Board) :
    setBoardToBuffer old ((flatten board).take (strlen (flatten board)) ++ [nul]) = .ok board := by
  have size : (flatten board).length = 64 := Grid.flattenLength board
  have small := strlenBoard board
  rw [setBoardEnough (by simp; omega)]
  by_cases full : strlen (flatten board) = 64
  · rw [full, List.take_of_length_le (by omega), boardOfFlatten]
  · have stopped : (flatten board).take (strlen (flatten board)) ++ [nul] = flatten board ++ [] := by
      rw [strlenStopped (by omega), List.take_of_length_le (by omega), List.append_nil]
    rw [stopped, boardOfFlatten]

theorem storedShort (short : strlen (flatten board) < 63) (old : Board) :
    setBoardToBuffer old ((flatten board).take (strlen (flatten board)) ++ [nul]) =
      .error (.pastEnd (strlen (flatten board) + 1)) := by
  have length : ((flatten board).take (strlen (flatten board)) ++ [nul]).length =
      strlen (flatten board) + 1 := by
    simp
    omega
  rw [← length]
  exact setBoardShort (by omega) old

theorem frameDelivers {chunk : Chunk} (clean : ∀ i j, board i j ≠ nul)
    (whole : chunk.bytes = boardFrame board) : Delivers chunk board := by
  have cells : payload chunk = flatten board := by
    rw [payload, whole, cleanFrame clean]
    rfl
  have accepted : Accepted chunk := by
    unfold Accepted
    rw [whole]
    exact ⟨_, frameDecoded board⟩
  refine ⟨accepted, ?_, ?_⟩
  · rw [cells, Grid.flattenLength]
    decide
  · simpa [cells] using (boardOfFlatten board []).symm

theorem roundTrip (board old : Board) :
    ∃ data, tlvDecode (boardFrame board) (boardFrame board).length = some data ∧
      (setBoardToBuffer old data = .ok board ↔
        ∀ i j : Fin 8, (i : Nat) * 8 + j < 63 → board i j ≠ nul) ∧
      ((¬ ∀ i j : Fin 8, (i : Nat) * 8 + j < 63 → board i j ≠ nul) →
        ∃ k, data.length ≤ k ∧ setBoardToBuffer old data = .error (.pastEnd k)) := by
  refine ⟨_, frameDecoded board, ?_, ?_⟩
  · rw [← strlenCells (by decide)]
    constructor
    · intro stored
      have enough := (setBoardDefined.mp stored).1
      simp only [List.length_append, List.length_take, List.length_singleton] at enough
      omega
    · intro long
      exact storedWhole long old
  · rw [← strlenCells (by decide)]
    intro short
    refine ⟨_, ?_, storedShort (by omega) old⟩
    simp

end Sent
end Warcaby.Wire
