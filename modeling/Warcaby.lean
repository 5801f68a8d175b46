import Warcaby.Ownership
import Warcaby.Relay
import Warcaby.EndOfGame
import Warcaby.Framing
import Warcaby.SharedBoard
import Warcaby.Discipline
import Warcaby.Codec
import Warcaby.Symmetry
import Warcaby.Reading
import Warcaby.Captures
import Warcaby.Landing
import Warcaby.Progress
import Warcaby.Agreement
import Warcaby.Counting
import Warcaby.Iteration
import Warcaby.Rounds
import Warcaby.Replay
import Warcaby.Stalemate
import Warcaby.Unreliable
import Warcaby.Shutdown
import Warcaby.Screen
import Warcaby.Crowning
import Warcaby.Endless
import Warcaby.Diagnosis
import Warcaby.Mirror
import Warcaby.Stranger
import Warcaby.Forgery
import Warcaby.Readings
import Warcaby.Keyboard
import Warcaby.Typing
import Warcaby.EarlierGames
