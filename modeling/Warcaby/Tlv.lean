import Warcaby.Board
import Warcaby.ByteStream

/-! The TLV frame of `server.c` and `client.c`, whose encoders and decoders are the
same code (the client's decoder also reads the type byte, and ignores it), and
the way a board travels in it: flattened, measured by `strlen`, and stored again
by reading 64 bytes of whatever was decoded. -/
namespace Warcaby.Tlv
open ByteStream
open Grid (flatten)

-- `BUFFER_SIZE` of `server.c` and `client.c`: the most one `recv` returns.
abbrev bufferSize : Nat := 1024

structure Chunk where
  bytes : List Byte
  bounded : bytes.length ≤ bufferSize
  deriving DecidableEq

/- `recv` on a stream that holds `channel`: it waits on an empty one, and returns at
most the first `size` bytes of any other. -/
def recv (size : Nat) (bounded : size ≤ bufferSize) (channel : List Byte) :
    Option (Chunk × List Byte) :=
  if channel = [] then none
  else some (⟨channel.take size,(List.length_take_le size channel).trans bounded⟩,channel.drop size)

def tlvEncode (data : List Byte) (dataLen : Nat) : List Byte :=
  0x01 :: UInt8.ofNat dataLen :: data.take dataLen

def tlvDecode (tlvData : List Byte) (tlvLen : Nat) : Option (List Byte) :=
  if tlvLen < 2 then none
  else
    let tlvLength := (tlvData.getD 1 nul).toNat
    if tlvLen ≠ 2 + tlvLength then none
    else some ((tlvData.drop 2).take tlvLength ++ [nul])

/- What both programs send for a board. -/
def boardFrame (board : Board) : List Byte :=
  let buffer := getBufferFromBoard board
  tlvEncode buffer (strlen buffer)

/- What both programs do with received bytes: `none` when `tlv_decode` refuses. -/
def storeFrame (board : Board) (tlvData : List Byte) (tlvLen : Nat) : Option (Checked Board) := do
  let decoded ← tlvDecode tlvData tlvLen
  some (setBoardToBuffer board decoded)

section Receiving
variable {size : Nat} {bounded : size ≤ bufferSize} {channel rest : List Byte} {chunk : Chunk}

theorem recvTaken (taken : recv size bounded channel = some (chunk,rest)) :
    channel ≠ [] ∧ chunk.bytes = channel.take size ∧ rest = channel.drop size := by
  unfold recv at taken
  split at taken
  · contradiction
  · rename_i occupied
    cases Option.some.inj taken
    exact ⟨occupied, rfl, rfl⟩

theorem recvReady (bounded : size ≤ bufferSize) (occupied : channel ≠ []) :
    ∃ chunk rest, recv size bounded channel = some (chunk,rest) := by
  unfold recv
  rw [if_neg occupied]
  exact ⟨_, _, rfl⟩

end Receiving

structure Decoded (tlvData : List Byte) (tlvLen : Nat) (data : List Byte) : Prop where
  header : 2 ≤ tlvLen
  length : tlvLen = 2 + (tlvData.getD 1 nul).toNat
  value : data = (tlvData.drop 2).take (tlvLen - 2) ++ [nul]

theorem decoded {tlvData : List Byte} {tlvLen : Nat} {data : List Byte} :
    tlvDecode tlvData tlvLen = some data ↔ Decoded tlvData tlvLen data := by
  unfold tlvDecode
  constructor
  · intro ok
    split at ok <;> try contradiction
    rename_i header
    dsimp only at ok
    split at ok <;> try contradiction
    rename_i length
    have exact' := not_not.mp length
    cases Option.some.inj ok
    refine ⟨by omega, exact', ?_⟩
    rw [show tlvLen - 2 = (tlvData.getD 1 nul).toNat by omega]
  · intro ⟨header, length, value⟩
    rw [if_neg (by omega)]
    dsimp only
    rw [if_neg (not_not.mpr length), value]
    rw [show tlvLen - 2 = (tlvData.getD 1 nul).toNat by omega]

theorem decodeLocal {left right : List Byte} {tlvLen : Nat}
    (same : left.take tlvLen = right.take tlvLen) : tlvDecode left tlvLen = tlvDecode right tlvLen := by
  by_cases header : tlvLen < 2
  · simp [tlvDecode, header]
  · have second : left.getD 1 nul = right.getD 1 nul := by
      have at' := congrArg (fun l => l[1]?) same
      simp only [List.getElem?_take] at at'
      rw [if_pos (by omega), if_pos (by omega)] at at'
      simp only [List.getD, at']
    have value : (left.drop 2).take (tlvLen - 2) = (right.drop 2).take (tlvLen - 2) := by
      rw [← List.drop_take, ← List.drop_take, same]
    refine Option.ext (fun data => ?_)
    simp only [decoded]
    constructor
    · intro ⟨header, length, same'⟩
      exact ⟨header, by rw [← second]; exact length, by rw [← value]; exact same'⟩
    · intro ⟨header, length, same'⟩
      exact ⟨header, by rw [second]; exact length, by rw [value]; exact same'⟩

theorem storeReceived (board : Board) (buffer chunk : List Byte) :
    storeFrame board (overwrite buffer chunk) chunk.length = storeFrame board chunk chunk.length := by
  have same : tlvDecode (overwrite buffer chunk) chunk.length = tlvDecode chunk chunk.length :=
    decodeLocal (by rw [overwriteTake, List.take_length])
  unfold storeFrame
  rw [same]

theorem decodedLength {chunk data : List Byte} (ok : Decoded chunk chunk.length data) :
    data.length = (chunk.getD 1 nul).toNat + 1 := by
  have header := ok.header
  have length := ok.length
  rw [ok.value]
  simp only [List.length_append, List.length_take, List.length_drop, List.length_singleton]
  omega

section Encoding
variable {data : List Byte} {n : Nat}

theorem encodeLength (fits : n ≤ data.length) : (tlvEncode data n).length = 2 + n := by
  simp only [tlvEncode, List.length_cons, List.length_take]
  omega

theorem lengthByte (small : n ≤ 255) : (UInt8.ofNat n).toNat = n := by
  rw [UInt8.toNat_ofNat']
  exact Nat.mod_eq_of_lt (by omega)

theorem decodeEncode (fits : n ≤ data.length) (small : n ≤ 255) :
    tlvDecode (tlvEncode data n) (tlvEncode data n).length = some (data.take n ++ [nul]) := by
  rw [encodeLength fits]
  refine decoded.mpr ⟨by omega, ?_, ?_⟩
  · change 2 + n = 2 + (UInt8.ofNat n).toNat
    rw [lengthByte small]
  · have value : (data.take n).take (2 + n - 2) = data.take n := by
      rw [List.take_take, Nat.add_sub_cancel_left, Nat.min_self]
    exact congrArg (· ++ [nul]) value.symm

/- A frame that has not arrived whole is refused: its length byte is there from the
second byte on, and asks for more. -/
theorem decodeShort (small : n ≤ 255) {k : Nat} (short : k < 2 + n) :
    tlvDecode ((tlvEncode data n).take k) k = none := by
  by_cases header : k < 2
  · simp [tlvDecode, header]
  · have second : ((tlvEncode data n).take k).getD 1 nul = UInt8.ofNat n := by
      simp only [List.getD, List.getElem?_take, tlvEncode]
      rw [if_pos (by omega)]
      rfl
    unfold tlvDecode
    rw [if_neg header, second]
    dsimp only
    rw [lengthByte small, if_pos (by omega)]

end Encoding

section Boards
variable {board : Board}

theorem bufferLength (board : Board) : strlen (getBufferFromBoard board) = strlen (flatten board) :=
  strlenPadding (flatten board) _

theorem strlenBoard (board : Board) : strlen (flatten board) ≤ 64 := by
  simpa using strlenLe (flatten board)

theorem bufferTake {n : Nat} (small : n ≤ 64) :
    (getBufferFromBoard board).take n = (flatten board).take n := by
  unfold getBufferFromBoard
  rw [List.take_append_of_le_length (by simpa using small)]

theorem bufferFits {n : Nat} (small : n ≤ 64) : n ≤ (getBufferFromBoard board).length := by
  simp only [getBufferFromBoard, List.length_append, Grid.flattenLength]
  omega

theorem frameBytes (board : Board) :
    boardFrame board = 0x01 :: UInt8.ofNat (strlen (flatten board)) ::
      (flatten board).take (strlen (flatten board)) := by
  have small := strlenBoard board
  simp only [boardFrame, tlvEncode, bufferLength, bufferTake small]

theorem frameOccupied (board : Board) : boardFrame board ≠ [] := by
  rw [frameBytes]
  exact List.cons_ne_nil _ _

theorem frameFits (board : Board) : (boardFrame board).length ≤ bufferSize := by
  have small := strlenBoard board
  rw [boardFrame, bufferLength, encodeLength (bufferFits small)]
  unfold bufferSize
  omega

theorem recvFrame {bounded : bufferSize ≤ bufferSize} {chunk : Chunk} {rest : List Byte}
    (taken : recv bufferSize bounded (boardFrame board) = some (chunk,rest)) :
    chunk.bytes = boardFrame board ∧ rest = [] := by
  obtain ⟨_, bytes, left⟩ := recvTaken taken
  rw [List.take_of_length_le (frameFits board)] at bytes
  rw [List.drop_of_length_le (frameFits board)] at left
  exact ⟨bytes, left⟩

theorem frameDecoded (board : Board) :
    tlvDecode (boardFrame board) (boardFrame board).length =
      some ((flatten board).take (strlen (flatten board)) ++ [nul]) := by
  have small := strlenBoard board
  unfold boardFrame
  dsimp only
  rw [bufferLength, decodeEncode (bufferFits small) (by omega), bufferTake small]

theorem cleanLength (clean : ∀ i j, board i j ≠ nul) : strlen (flatten board) = 64 := by
  have members : ∀ b ∈ flatten board, b ≠ 0 := by
    intro b member
    obtain ⟨i, j, rfl⟩ := Grid.flattenMember.mp member
    exact clean i j
  rw [strlenClean members, Grid.flattenLength]

theorem cleanFrame (clean : ∀ i j, board i j ≠ nul) :
    boardFrame board = 0x01 :: 64 :: flatten board := by
  rw [frameBytes, cleanLength clean, List.take_of_length_le (by simp)]
  rfl

end Boards

end Warcaby.Tlv
