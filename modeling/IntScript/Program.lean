import IntScript.Error
import IntScript.Eval
import IntScript.Parse
import IntScript.Tree.Dot

/-!
# Programs

A program is compiled once from its source and can then be run any number of times, each time with
fresh variables.
-/

namespace IntScript

/-- A compiled program. -/
structure Program where
  /-- The text that the program was compiled from. -/
  source : String
  /-- The tree of the program. -/
  root : Tree Mark
  /-- The slots of its variables. -/
  layout : Layout
  /-- What is known about the nodes of its tree. -/
  annotations : Annotations

namespace Program

/-- Compiles a program. -/
def compile (source : String) : Except Error Program :=
  match parseNodes source with
  | .error e => .error (.ofParse e source)
  | .ok nodes =>
    let root := nodes.inOrder
    let (layout, annotations) := resolve .empty root
    .ok ⟨source, root, layout, annotations⟩

/-- More rounds than a loop can take in any time that one could wait for it. -/
def amplePatience : Nat := 4611686018427387904

/-- The machine on which a run starts. -/
def start (p : Program) (input : Input) (output : Output) : Machine :=
  ⟨.zeros p.layout.slotCount, input, output, 0⟩

/-- Runs a program. The result is the final stack, or the error that ended the run, with the
machine as it is left. -/
def run (p : Program) (limits : Limits) (patience : Nat) (input : Input) (output : Output) :
    Outcome Error Stack × Machine :=
  match Eval.run ⟨limits, p.annotations, true, patience⟩ p.root (p.start input output) with
  | (.done _, m) => (.done m.stack, m)
  | (.failed f, m) => (.failed (.ofFault f p.source), m)
  | (.unfinished, m) => (.unfinished, m)

/-- The dump of the tree of a program. -/
def dump (p : Program) : String := Dot.dump p.annotations p.root

end Program
end IntScript
