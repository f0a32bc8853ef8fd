import Arbor.Session
import Arbor.Tree.Program

/-!
# Running stored trees

A stored tree runs like the program it denotes.  A tree that is no program at all is a fault of
the run, which ends the trace like any other end.
-/

namespace Arbor
namespace Session

/-- Resolves and executes the program a tree denotes. -/
def runTree (limits : Limits) (s : Session) (tree : Tree) : Session × Verdict :=
  match Program.ofTree tree with
  | .ok program => s.run limits program
  | .error fault => (s.closeTrace, .fault (.slot fault))

/-- Executes the program a tree denotes as it is. -/
def interpretTree (limits : Limits) (s : Session) (tree : Tree) : Session × Verdict :=
  match Program.ofTree tree with
  | .ok program => s.interpret limits program.body
  | .error fault => (s, .fault (.slot fault))

end Session
end Arbor
