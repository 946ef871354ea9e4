import IntScript.Eval

/-!
# Programs by their names

A semantics of programs that knows no slots. It works on trees as they are parsed, and the
variables live in a store that gives every name a value, in one flat namespace. Rules say how an
expression comes to its value and what a statement does; there is a derivation for every end that a
program can come to and none for a program that goes on forever.

Both operands of every operator are evaluated, the left one first, also those of logical operators.
An operator that changes a variable yields the new value. Every node is checked against the depth
limit before anything else happens to it, and every loop body against the iteration limit.
-/

namespace IntScript.Reference

/-- The state of a program: its variables by name, and its devices and counters. -/
structure World where
  /-- The value of every name. -/
  store : String → Value
  /-- The input that is left. -/
  input : Input
  /-- The output so far. -/
  output : Output
  /-- The number of loop bodies started so far. -/
  iterations : Nat

namespace World

/-- The world in which a program starts: all names have the value zero. -/
def initial (input : Input) (output : Output) : World := ⟨fun _ => 0, input, output, 0⟩

/-- The world with a new value for one name. -/
def set (w : World) (name : String) (v : Value) : World :=
  { w with store := fun x => if x = name then v else w.store x }

/-- The world with one more loop body started. -/
def count (w : World) : World := { w with iterations := w.iterations + 1 }

end World

/-- An expression, nested in `d` other nodes, comes to a value or fails, and leaves a world
behind. -/
inductive Evaluates (limits : Limits) :
    Nat → Tree Span → World → Except Fault Value → World → Prop
  | tooDeep {d : Nat} {e : Tree Span} {w : World} (h : limits.maxDepth ≤ d) :
      Evaluates limits d e w (.error ⟨.depthLimit d limits.maxDepth, some e.label⟩) w
  | literal {d : Nat} {a : Span} {v : Value} {w : World} (h : d < limits.maxDepth) :
      Evaluates limits d (.literal a v) w (.ok v) w
  | input {d : Nat} {a : Span} {w : World} {result : Except Input.Fault Value} {rest : Input}
      (h : d < limits.maxDepth) (hnext : w.input.next = (result, rest)) :
      Evaluates limits d (.input a) w (result.mapError fun f => ⟨.ofInput f, some a⟩)
        { w with input := rest }
  | var {d : Nat} {a : Span} {name : String} {w : World} (h : d < limits.maxDepth) :
      Evaluates limits d (.var a name) w (.ok (w.store name)) w
  | binaryLeft {d : Nat} {a : Span} {op : BinaryOp} {l r : Tree Span} {w w' : World} {f : Fault}
      (h : d < limits.maxDepth) (hl : Evaluates limits (d + 1) l w (.error f) w') :
      Evaluates limits d (.binary a op l r) w (.error f) w'
  | binaryRight {d : Nat} {a : Span} {op : BinaryOp} {l r : Tree Span} {w w' w'' : World}
      {x : Value} {f : Fault} (h : d < limits.maxDepth)
      (hl : Evaluates limits (d + 1) l w (.ok x) w')
      (hr : Evaluates limits (d + 1) r w' (.error f) w'') :
      Evaluates limits d (.binary a op l r) w (.error f) w''
  | binary {d : Nat} {a : Span} {op : BinaryOp} {l r : Tree Span} {w w' w'' : World}
      {x y : Value} (h : d < limits.maxDepth) (hl : Evaluates limits (d + 1) l w (.ok x) w')
      (hr : Evaluates limits (d + 1) r w' (.ok y) w'') :
      Evaluates limits d (.binary a op l r) w
        ((op.apply x y).mapError fun f => ⟨.arithmetic f, some a⟩) w''
  | unaryFails {d : Nat} {a : Span} {op : UnaryOp} {t : Tree Span} {w w' : World} {f : Fault}
      (h : d < limits.maxDepth) (hop : op.mutates = false)
      (ht : Evaluates limits (d + 1) t w (.error f) w') :
      Evaluates limits d (.unary a op t) w (.error f) w'
  | unary {d : Nat} {a : Span} {op : UnaryOp} {t : Tree Span} {w w' : World} {x : Value}
      (h : d < limits.maxDepth) (hop : op.mutates = false)
      (ht : Evaluates limits (d + 1) t w (.ok x) w') :
      Evaluates limits d (.unary a op t) w (.ok (op.apply x)) w'
  | change {d : Nat} {a b : Span} {op : UnaryOp} {name : String} {w : World}
      (h : d < limits.maxDepth) (hop : op.mutates = true) :
      Evaluates limits d (.unary a op (.var b name)) w (.ok (op.apply (w.store name)))
        (w.set name (op.apply (w.store name)))
  | assignFails {d : Nat} {a b : Span} {name : String} {v : Tree Span} {w w' : World} {f : Fault}
      (h : d < limits.maxDepth) (hv : Evaluates limits (d + 1) v w (.error f) w') :
      Evaluates limits d (.assign a (.var b name) v) w (.error f) w'
  | assign {d : Nat} {a b : Span} {name : String} {v : Tree Span} {w w' : World} {x : Value}
      (h : d < limits.maxDepth) (hv : Evaluates limits (d + 1) v w (.ok x) w') :
      Evaluates limits d (.assign a (.var b name) v) w (.ok x) (w'.set name x)
  | printFails {d : Nat} {a : Span} {t : Tree Span} {w w' : World} {f : Fault}
      (h : d < limits.maxDepth) (ht : Evaluates limits (d + 1) t w (.error f) w') :
      Evaluates limits d (.print a t) w (.error f) w'
  | print {d : Nat} {a : Span} {t : Tree Span} {w w' : World} {x : Value}
      {written : Except DeviceFault Unit} {output : Output} (h : d < limits.maxDepth)
      (ht : Evaluates limits (d + 1) t w (.ok x) w')
      (hw : w'.output.write (Text.encode (Value.chars x ++ ['\n'])) = (written, output)) :
      Evaluates limits d (.print a t) w
        ((written.map fun _ => x).mapError fun f => ⟨.device f, some a⟩)
        { w' with output := output }
  | condition {d : Nat} {a : Span} {t : Tree Span} {w w' : World} {r : Except Fault Value}
      (h : d < limits.maxDepth) (ht : Evaluates limits (d + 1) t w r w') :
      Evaluates limits d (.condition a t) w r w'

/-- A statement, nested in `d` other nodes, is executed to its end or fails, and leaves a world
behind. -/
inductive Executes (limits : Limits) :
    Nat → Tree Span → World → Except Fault Unit → World → Prop
  | tooDeep {d : Nat} {s : Tree Span} {w : World} (h : limits.maxDepth ≤ d) :
      Executes limits d s w (.error ⟨.depthLimit d limits.maxDepth, some s.label⟩) w
  | expression {d : Nat} {a : Span} {e : Tree Span} {w w' : World} {r : Except Fault Value}
      (h : d < limits.maxDepth) (he : Evaluates limits (d + 1) e w r w') :
      Executes limits d (.sequence a e none) w (r.map fun _ => ()) w'
  | blockEnd {d : Nat} {a : Span} {w : World} (h : d < limits.maxDepth) :
      Executes limits d (.block a []) w (.ok ()) w
  | blockStop {d : Nat} {a : Span} {s : Tree Span} {ss : List (Tree Span)} {w w' : World}
      {f : Fault} (h : d < limits.maxDepth) (hs : Executes limits (d + 1) s w (.error f) w') :
      Executes limits d (.block a (s :: ss)) w (.error f) w'
  | blockNext {d : Nat} {a : Span} {s : Tree Span} {ss : List (Tree Span)} {w w' w'' : World}
      {r : Except Fault Unit} (h : d < limits.maxDepth)
      (hs : Executes limits (d + 1) s w (.ok ()) w')
      (hss : Executes limits d (.block a ss) w' r w'') :
      Executes limits d (.block a (s :: ss)) w r w''
  | ifFails {d : Nat} {a : Span} {c t : Tree Span} {e : Option (Tree Span)} {w w' : World}
      {f : Fault} (h : d < limits.maxDepth) (hc : Evaluates limits (d + 1) c w (.error f) w') :
      Executes limits d (.ifElse a c t e) w (.error f) w'
  | ifTrue {d : Nat} {a : Span} {c t : Tree Span} {e : Option (Tree Span)} {w w' w'' : World}
      {x : Value} {r : Except Fault Unit} (h : d < limits.maxDepth)
      (hc : Evaluates limits (d + 1) c w (.ok x) w') (hx : Value.truthy x = true)
      (ht : Executes limits (d + 1) t w' r w'') : Executes limits d (.ifElse a c t e) w r w''
  | ifFalse {d : Nat} {a : Span} {c t e : Tree Span} {w w' w'' : World} {x : Value}
      {r : Except Fault Unit} (h : d < limits.maxDepth)
      (hc : Evaluates limits (d + 1) c w (.ok x) w') (hx : Value.truthy x = false)
      (he : Executes limits (d + 1) e w' r w'') : Executes limits d (.ifElse a c t (some e)) w r w''
  | ifNone {d : Nat} {a : Span} {c t : Tree Span} {w w' : World} {x : Value}
      (h : d < limits.maxDepth) (hc : Evaluates limits (d + 1) c w (.ok x) w')
      (hx : Value.truthy x = false) : Executes limits d (.ifElse a c t none) w (.ok ()) w'
  | whileFails {d : Nat} {a : Span} {c b : Tree Span} {w w' : World} {f : Fault}
      (h : d < limits.maxDepth) (hc : Evaluates limits (d + 1) c w (.error f) w') :
      Executes limits d (.whileLoop a c b) w (.error f) w'
  | whileEnd {d : Nat} {a : Span} {c b : Tree Span} {w w' : World} {x : Value}
      (h : d < limits.maxDepth) (hc : Evaluates limits (d + 1) c w (.ok x) w')
      (hx : Value.truthy x = false) : Executes limits d (.whileLoop a c b) w (.ok ()) w'
  | whileLimit {d : Nat} {a : Span} {c b : Tree Span} {w w' : World} {x : Value} {n : Nat}
      (h : d < limits.maxDepth) (hc : Evaluates limits (d + 1) c w (.ok x) w')
      (hx : Value.truthy x = true) (hn : limits.maxIterations = some n)
      (hlt : n < w'.count.iterations) :
      Executes limits d (.whileLoop a c b) w (.error ⟨.iterationLimit n, some a⟩) w'.count
  | whileStop {d : Nat} {a : Span} {c b : Tree Span} {w w' w'' : World} {x : Value} {f : Fault}
      (h : d < limits.maxDepth) (hc : Evaluates limits (d + 1) c w (.ok x) w')
      (hx : Value.truthy x = true)
      (hn : ∀ n, limits.maxIterations = some n → w'.count.iterations ≤ n)
      (hb : Executes limits (d + 1) b w'.count (.error f) w'') :
      Executes limits d (.whileLoop a c b) w (.error f) w''
  | whileNext {d : Nat} {a : Span} {c b : Tree Span} {w w' w'' w''' : World} {x : Value}
      {r : Except Fault Unit} (h : d < limits.maxDepth)
      (hc : Evaluates limits (d + 1) c w (.ok x) w') (hx : Value.truthy x = true)
      (hn : ∀ n, limits.maxIterations = some n → w'.count.iterations ≤ n)
      (hb : Executes limits (d + 1) b w'.count (.ok ()) w'')
      (hw : Executes limits d (.whileLoop a c b) w'' r w''') :
      Executes limits d (.whileLoop a c b) w r w'''

/-- A whole program runs to its end or fails. The output is flushed when the program has come to
its end; a failing flush is blamed on the whole program. -/
inductive Runs (limits : Limits) (t : Tree Span) (w : World) : Except Fault Unit → World → Prop
  | fails {f : Fault} {w' : World} (h : Executes limits 0 t w (.error f) w') :
      Runs limits t w (.error f) w'
  | ends {w' : World} (h : Executes limits 0 t w (.ok ()) w') :
      Runs limits t w (w'.output.flush.mapError fun f => ⟨.device f, some t.label⟩) w'

end IntScript.Reference
