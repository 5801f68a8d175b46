import Warcaby.Server

/-! The end of a game. `play_game` never counts the pieces it relays, so it goes on
after a board on which one side has none left. -/
namespace Warcaby.EndOfGame
open Tlv Wire Server

end Warcaby.EndOfGame
