import Warcaby.Klient
import Warcaby.Play
import Warcaby.Server

/-! Frames in pieces. Neither program puts the pieces of a frame together again:
each takes what one `recv` returns for a whole frame, and the length check in
`tlv_decode` turns everything shorter into an exit. -/
namespace Warcaby.Framing
open ByteStream Tlv Wire
open Server (Client)

def takes {σ : Type} (receive : σ → Chunk → Option σ) : σ → List Chunk → σ
  | s, [] => s
  | s, chunk :: rest =>
    match receive s chunk with
    | none => s
    | some next => takes receive next rest

theorem takesStopped {σ : Type} {receive : σ → Chunk → Option σ} {s : σ}
    (stopped : ∀ chunk, receive s chunk = none) (chunks : List Chunk) : takes receive s chunks = s := by
  cases chunks with
  | nil => rfl
  | cons chunk rest => simp only [takes, stopped]

def serverReceive (s : Server.State) (chunk : Chunk) : Option Server.State :=
  (Server.receive s chunk).map Prod.snd

def serverTakes : Server.State → List Chunk → Server.State := takes serverReceive

def klientTakes : Klient.State → List Chunk → Klient.State := takes Klient.receive

section Pieces
variable {board : Board} {first : Chunk} {s : Server.State} {k : Klient.State} {c : Client}

theorem serverWhole (waiting : s.phase = .receiving c) (delivers : Delivers first board) :
    (serverTakes s [first]).phase = .sending c.other ∧ (serverTakes s [first]).board = board := by
  obtain ⟨next, taken, phase, stored, _⟩ := Server.receiveDelivered waiting delivers
  simp only [serverTakes, takes, serverReceive, taken, Option.map_some]
  exact ⟨phase, stored⟩

theorem klientWhole (waiting : k.phase = .receiving) (delivers : Delivers first board) :
    (klientTakes k [first]).phase = .moving [] ∧ (klientTakes k [first]).board = board := by
  obtain ⟨next, taken, phase, stored, _⟩ := Klient.receiveDelivered waiting delivers
  simp only [klientTakes, takes, taken]
  exact ⟨phase, stored⟩

theorem serverPiece (waiting : s.phase = .receiving c) (refused : Refused first)
    (rest : List Chunk) : (serverTakes s (first :: rest)).phase = .exited ∧
      (serverTakes s (first :: rest)).board = s.board := by
  obtain ⟨next, taken, exited, same⟩ := Server.receiveRefused waiting refused
  have stopped : ∀ chunk, serverReceive next chunk = none := by
    intro chunk
    simp only [serverReceive, Server.receive, exited, Option.map_none]
  simp only [serverTakes, takes, serverReceive, taken, Option.map_some, takesStopped stopped]
  exact ⟨exited, same⟩

theorem klientPiece (waiting : k.phase = .receiving) (refused : Refused first)
    (rest : List Chunk) : (klientTakes k (first :: rest)).phase = .exited ∧
      (klientTakes k (first :: rest)).board = k.board := by
  obtain ⟨next, taken, exited, same⟩ := Klient.receiveRefused waiting refused
  have stopped : ∀ chunk, Klient.receive next chunk = none := by
    intro chunk
    simp only [Klient.receive, exited]
  simp only [klientTakes, takes, taken, takesStopped stopped]
  exact ⟨exited, same⟩

end Pieces

theorem cutRefused {board : Board} {first second : Chunk} {rest : List Chunk}
    (clean : ∀ i j, board i j ≠ nul)
    (cut : Cutting (boardFrame board) ((first :: second :: rest).map Chunk.bytes)) :
    Refused first := by
  obtain ⟨short, front⟩ := cuttingFirst cut
  rw [Refused, front, List.length_take]
  rw [boardFrame, bufferLength, cleanLength clean] at short ⊢
  rw [encodeLength (bufferFits (by decide))] at short ⊢
  rw [Nat.min_eq_left (by omega)]
  exact decodeShort (by decide) short

theorem framing {board : Board} (cells : GameCells board) {chunks : List Chunk}
    (cut : Cutting (boardFrame board) (chunks.map Chunk.bytes)) {s : Server.State} {c : Client}
    (serverWaits : s.phase = .receiving c) {k : Klient.State} (klientWaits : k.phase = .receiving) :
    (chunks.length = 1 →
      ((serverTakes s chunks).phase = .sending c.other ∧ (serverTakes s chunks).board = board) ∧
      ((klientTakes k chunks).phase = .moving [] ∧ (klientTakes k chunks).board = board)) ∧
    (chunks.length ≠ 1 →
      ((serverTakes s chunks).phase = .exited ∧ (serverTakes s chunks).board = s.board) ∧
      ((klientTakes k chunks).phase = .exited ∧ (klientTakes k chunks).board = k.board)) := by
  have clean := fun i j => gameCellNotNul (cells i j)
  cases chunks with
  | nil =>
    have empty := cut.joined
    rw [frameBytes] at empty
    cases empty
  | cons first rest =>
    cases rest with
    | nil =>
      have delivers : Delivers first board := frameDelivers clean (cuttingWhole cut)
      refine ⟨fun _ => ⟨serverWhole serverWaits delivers, klientWhole klientWaits delivers⟩, ?_⟩
      intro pieces
      exact absurd rfl pieces
    | cons second rest =>
      have refused := cutRefused clean cut
      refine ⟨fun one => by simp at one, fun _ => ?_⟩
      exact ⟨serverPiece serverWaits refused _, klientPiece klientWaits refused _⟩

abbrev openingBoard : Board := Play.openingCall.turn.board

def whole : Chunk := ⟨boardFrame openingBoard,by decide⟩
def typeByte : Chunk := ⟨(boardFrame openingBoard).take 1,by decide⟩
def remainder : Chunk := ⟨(boardFrame openingBoard).drop 1,by decide⟩

def waitingServer : Server.State := {Server.playGame 0 with phase := .receiving .one}
def waitingKlient : Klient.State := ⟨.receiving,initializeBoard,charO,[]⟩

theorem openingCells : GameCells openingBoard := by decide

theorem openingPieces : Cutting (boardFrame openingBoard) ([typeByte,remainder].map Chunk.bytes) where
  joined := by
    simp only [typeByte, remainder, List.map_cons, List.map_nil, List.flatten_cons,
      List.flatten_nil, List.append_nil, List.take_append_drop]
  nonempty := by decide

theorem openingMoved : initializeBoard ≠ openingBoard := by
  intro same
  have cell := congrFun (congrFun same 3) 2
  exact absurd cell (by decide)

theorem framingOpening : (serverTakes waitingServer [whole]).board = openingBoard ∧
    (klientTakes waitingKlient [whole]).board = openingBoard ∧
    (serverTakes waitingServer [typeByte,remainder]).phase = .exited := by
  have one : Cutting (boardFrame openingBoard) ([whole].map Chunk.bytes) :=
    ⟨by simp [whole], by decide⟩
  have arrives := (framing openingCells one (s := waitingServer) rfl (k := waitingKlient) rfl).1 rfl
  have breaks := (framing openingCells openingPieces (s := waitingServer) rfl (k := waitingKlient) rfl).2
    (by decide)
  exact ⟨arrives.1.2, arrives.2.2, breaks.1.1⟩

theorem piecesLost : Cutting (boardFrame openingBoard) ([typeByte,remainder].map Chunk.bytes) ∧
    (serverTakes waitingServer [typeByte,remainder]).board ≠ openingBoard ∧
    (klientTakes waitingKlient [typeByte,remainder]).board ≠ openingBoard := by
  have refused := cutRefused (fun i j => gameCellNotNul (openingCells i j)) openingPieces
  refine ⟨openingPieces, ?_, ?_⟩
  · rw [(serverPiece (s := waitingServer) (c := .one) rfl refused [remainder]).2]
    exact openingMoved
  · rw [(klientPiece (k := waitingKlient) rfl refused [remainder]).2]
    exact openingMoved

end Warcaby.Framing
