import Horizon.Engine.Run
import Horizon.Query.Reasoner

/-!
Everything a reasoner on an installed engine is set up with, and the defaults.
-/

namespace Horizon

structure Configuration where
  var : Text := ['n']
  actions : ActionSet := {}
  policy : Policy := .discard
  workingDirectory : Path
  engine : EngineConfig := {}
deriving DecidableEq, Repr

namespace Configuration

/-- The defaults, where temporary files go below the given directory. -/
def default (temporary : Path) : Configuration where
  workingDirectory := Installation.defaultDirectory temporary

def reasoner (c : Configuration) (levels : Levels) : Reasoner :=
  ⟨c.var, c.actions, c.policy, levels⟩

def installation (c : Configuration) (levels : Levels) : Installation :=
  ⟨c.engine, c.workingDirectory, levels⟩

/-- Asks the installed engine one query. The reasoner and its engine report at the same
levels. -/
def ask (host : Host) (c : Configuration) (levels : Levels) (query : Query) (t : FileTree) :
    Outcome FileTree Reply :=
  (c.reasoner levels).ask (Installation.solve host (c.installation levels)) query t

end Configuration
end Horizon
