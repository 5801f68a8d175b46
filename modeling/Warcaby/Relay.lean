import Warcaby.Server

/-! What the server relays. It looks at no rule of the game: 64 clean payload bytes
from one client become the next frame for the other, whatever they are. -/
namespace Warcaby.Relay
open ByteStream Tlv Wire Server
open Grid (flatten)

def framesSent (events : List Event) : List (Client × List Byte) :=
  events.filterMap (fun event => match event with
    | .sent c bytes => some (c,bytes)
    | .stored _ _ => none)

structure Relayable (chunk : Chunk) : Prop where
  accepted : Accepted chunk
  whole : 64 ≤ (payload chunk).length
  clean : ∀ b ∈ (payload chunk).take 64, b ≠ nul

def relayed : Client → List Chunk → List (Client × List Byte)
  | _, [] => []
  | sender, chunk :: rest =>
    (sender.other,0x01 :: 64 :: (payload chunk).take 64) :: relayed sender.other rest

theorem flattenBytes {bytes : List Byte} (enough : 64 ≤ bytes.length) :
    flatten (boardOfBytes bytes) = bytes.take 64 := by
  refine List.ext_getElem? (fun k => ?_)
  rcases Nat.lt_or_ge k 64 with inside | outside
  · have here : k < (Grid.rowMajor 8 8).length := by simpa using inside
    have cell := Grid.flattenAt (boardOfBytes bytes) (Grid.rowMajor 8 8)[k]
    rw [Grid.rowMajorOffset (List.getElem?_eq_getElem here)] at cell
    rw [cell, List.getElem?_take_of_lt inside, List.getElem?_eq_getElem (by omega)]
    simp only [boardOfBytes, Grid.rowMajorOffset (List.getElem?_eq_getElem here), List.getD,
      List.getElem?_eq_getElem (show k < bytes.length by omega), Option.getD_some]
  · rw [List.getElem?_eq_none (by simpa using outside), List.getElem?_eq_none (by simp; omega)]

theorem relayableFrame {chunk : Chunk} {board : Board} (relayable : Relayable chunk)
    (delivers : Delivers chunk board) :
    boardFrame board = 0x01 :: 64 :: (payload chunk).take 64 := by
  have cells : flatten board = (payload chunk).take 64 := by
    rw [delivers.board, flattenBytes relayable.whole]
  have clean : ∀ i j, board i j ≠ nul := by
    intro i j
    refine relayable.clean _ ?_
    rw [← cells]
    exact Grid.flattenMember.mpr ⟨i, j, rfl⟩
  rw [cleanFrame clean, cells]

theorem servedFrames {c : Client} {board : Board} {chunks : List Chunk} {events : List Event}
    {last : Phase} (run : Serves c board chunks events last)
    (relayable : ∀ chunk ∈ chunks, Relayable chunk) :
    framesSent events = (c,boardFrame board) :: relayed c chunks := by
  induction run with
  | waits => rfl
  | refused c board rest bad =>
    exact absurd (relayable _ List.mem_cons_self).accepted (refusedNotAccepted bad)
  | overrun c board rest fault bad =>
    have whole := (relayable _ List.mem_cons_self).whole
    have short := bad.short
    omega
  | stored good later ih =>
    have rest := ih (fun chunk inside => relayable chunk (List.mem_cons_of_mem _ inside))
    rw [relayableFrame (relayable _ List.mem_cons_self) good] at rest
    simp only [framesSent, List.filterMap_cons] at rest ⊢
    rw [rest]
    rfl

theorem servedRefused {c : Client} {board : Board} {before rest : List Chunk} {chunk : Chunk}
    {first all : List Event} {waits last : Phase} (prefix' : Serves c board before first waits)
    (run : Serves c board (before ++ chunk :: rest) all last)
    (accepted : ∀ k ∈ before, Accepted k) (refused : Refused chunk) :
    framesSent all = framesSent first ∧ (last = .exited ∨ ∃ k ∈ before, Overruns k) := by
  induction before generalizing c board first all with
  | nil =>
    obtain ⟨sent, exited⟩ := servesRefused run refused
    cases prefix'
    exact ⟨by rw [sent], .inl exited⟩
  | cons k before ih =>
    rcases chunkVerdict k with bad | overruns | ⟨next, delivers⟩
    · exact absurd (accepted k List.mem_cons_self) (refusedNotAccepted bad)
    · rw [servesOverrun prefix' overruns, servesOverrun run overruns]
      exact ⟨rfl, .inr ⟨k, List.mem_cons_self, overruns⟩⟩
    · obtain ⟨first, rfl, left⟩ := servesStored prefix' delivers
      obtain ⟨all, rfl, right⟩ := servesStored run delivers
      obtain ⟨same, stops⟩ := ih left right (fun k inside => accepted k (List.mem_cons_of_mem _ inside))
      refine ⟨?_, stops.imp_right ?_⟩
      · simp only [framesSent, List.filterMap_cons] at same ⊢
        rw [same]
      · rintro ⟨k, inside, bad⟩
        exact ⟨k, List.mem_cons_of_mem _ inside, bad⟩

theorem relayTrace (randNum : Nat) :
    (∀ chunks, (∀ chunk ∈ chunks, Relayable chunk) →
      framesSent (serve (playGame randNum) chunks).1 =
        (.one,0x01 :: 64 :: flatten initializeBoard) :: relayed .one chunks) ∧
    (∀ before chunk rest, (∀ k ∈ before, Accepted k) → Refused chunk →
      framesSent (serve (playGame randNum) (before ++ chunk :: rest)).1 =
        framesSent (serve (playGame randNum) before).1 ∧
      ((serve (playGame randNum) (before ++ chunk :: rest)).2.phase = .exited ∨
        ∃ k ∈ before, Overruns k)) := by
  have run := serves (s := playGame randNum) (c := .one) rfl
  constructor
  · intro chunks relayable
    have initial : boardFrame initializeBoard = 0x01 :: 64 :: flatten initializeBoard :=
      cleanFrame (fun i j => gameCellNotNul (initialWellFormed.cells i j))
    rw [← initial]
    exact servedFrames (run chunks) relayable
  · intro before chunk rest accepted refused
    exact servedRefused (run before) (run (before ++ chunk :: rest)) accepted refused

def longPayload : Chunk := ⟨0x01 :: 70 :: List.replicate 70 charX,by decide⟩
def closed : Chunk := ⟨[],by decide⟩

theorem relayTraceClosed :
    framesSent (serve (playGame 0) [longPayload,closed]).1 =
      [(.one,0x01 :: 64 :: flatten initializeBoard),(.two,0x01 :: 64 :: List.replicate 64 charX)] := by
  have accepted : Accepted longPayload := ⟨_, rfl⟩
  have bytes : payload longPayload = List.replicate 70 charX := rfl
  have relayable : Relayable longPayload := by
    refine ⟨accepted, by decide, fun b member => ?_⟩
    rw [bytes] at member
    rw [List.eq_of_mem_replicate (List.mem_of_mem_take member)]
    decide
  have ended := (relayTrace 0).2 [longPayload] closed [] (by simpa using accepted) rfl
  have sent := (relayTrace 0).1 [longPayload] (by simpa using relayable)
  exact ended.1.trans sent

end Warcaby.Relay
