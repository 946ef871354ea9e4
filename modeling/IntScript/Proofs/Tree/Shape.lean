import IntScript.Proofs.Grammar.Words
import IntScript.Tree.Numbered

/-!
# The trees of programs

The tree type is wider than the language. The trees of programs are picked out by their shape:
which nodes may stand in which places, which numbers and names they may hold. The shape does not
depend on the labels of the nodes, so numbering a tree keeps it.
-/

namespace IntScript.Tree

variable {α β : Type}

/-- Induction on trees in which the statements of a block and the optional parts of a node are
covered by hypotheses on their members. -/
theorem induction {motive : Tree α → Prop}
    (literal : ∀ a v, motive (.literal a v))
    (input : ∀ a, motive (.input a))
    (var : ∀ a name, motive (.var a name))
    (binary : ∀ a op l r, motive l → motive r → motive (.binary a op l r))
    (unary : ∀ a op t, motive t → motive (.unary a op t))
    (assign : ∀ a t v, motive t → motive v → motive (.assign a t v))
    (sequence : ∀ a c rest, motive c → (∀ r ∈ rest, motive r) → motive (.sequence a c rest))
    (block : ∀ a ts, (∀ t ∈ ts, motive t) → motive (.block a ts))
    (condition : ∀ a t, motive t → motive (.condition a t))
    (ifElse : ∀ a c t e, motive c → motive t → (∀ x ∈ e, motive x) →
      motive (.ifElse a c t e))
    (whileLoop : ∀ a c b, motive c → motive b → motive (.whileLoop a c b))
    (print : ∀ a t, motive t → motive (.print a t)) (t : Tree α) : motive t := by
  refine @Tree.rec α motive (fun o => ∀ r ∈ o, motive r) (fun ts => ∀ t ∈ ts, motive t)
    literal input var binary unary assign sequence block condition ifElse whileLoop print
    ?_ ?_ ?_ ?_ t
  · intro r hr
    cases hr
  · intro r hr x hx
    cases hx
    exact hr
  · intro r hr
    cases hr
  · intro r rs hr hrs x hx
    rcases List.mem_cons.1 hx with rfl | hx
    · exact hr
    · exact hrs x hx

/-- The label of a tree is relabelled with it. -/
theorem label_relabel (f : α → β) (t : Tree α) : (t.relabel f).label = f t.label := by
  cases t with
  | sequence a c rest => cases rest <;> rfl
  | ifElse a c t e => cases e <;> rfl
  | _ => rfl

/-- Other labels do not change the kind of a node. -/
theorem kind_relabel (f : α → β) (t : Tree α) : (t.relabel f).kind = t.kind := by
  cases t with
  | sequence a c rest => cases rest <;> rfl
  | ifElse a c t e => cases e <;> rfl
  | _ => rfl

/-- Statements get other labels one by one. -/
theorem relabelAll_eq_map (f : α → β) (ts : List (Tree α)) :
    relabelAll f ts = ts.map (relabel f) := by
  induction ts with
  | nil => rfl
  | cons t ts ih => rw [relabelAll, ih, List.map_cons]

/-- The tree without its labels: two trees with one skeleton have the same structure. -/
def skeleton (t : Tree α) : Tree Unit := t.relabel fun _ => ()

/-- Only variables have the skeleton of a variable. -/
theorem exists_var_of_skeleton {t : Tree α} {b : β} {name : String}
    (h : t.skeleton = (Tree.var b name).skeleton) : ∃ a, t = .var a name := by
  cases t with
  | var a name' =>
    cases h
    exact ⟨a, rfl⟩
  | sequence a c rest => cases rest <;> cases h
  | ifElse a c t e => cases e <;> cases h
  | _ => cases h

/-- Expressions: everything that yields a value, with names and numbers as they can be written.
Only variables are changed or assigned to. -/
inductive IsExpression : Tree α → Prop
  | literal {a : α} {v : Value} (h : 0 ≤ v.toInt) : IsExpression (.literal a v)
  | input {a : α} : IsExpression (.input a)
  | var {a : α} {name : String} (h : Grammar.isIdentifier name.toList = true) :
      IsExpression (.var a name)
  | binary {a : α} {op : BinaryOp} {l r : Tree α} (hl : IsExpression l) (hr : IsExpression r) :
      IsExpression (.binary a op l r)
  | unary {a : α} {op : UnaryOp} {t : Tree α} (hop : op.mutates = false) (ht : IsExpression t) :
      IsExpression (.unary a op t)
  | change {a b : α} {op : UnaryOp} {name : String} (hop : op.mutates = true)
      (h : Grammar.isIdentifier name.toList = true) : IsExpression (.unary a op (.var b name))
  | assign {a b : α} {name : String} {v : Tree α}
      (h : Grammar.isIdentifier name.toList = true) (hv : IsExpression v) :
      IsExpression (.assign a (.var b name) v)
  | print {a : α} {t : Tree α} (ht : IsExpression t) : IsExpression (.print a t)

/-- Statements: what can stand in a block. The parts of branches and loops are conditions and
blocks. -/
inductive IsStatement : Tree α → Prop
  | expression {a : α} {t : Tree α} (ht : IsExpression t) : IsStatement (.sequence a t none)
  | block {a : α} {ts : List (Tree α)} (hts : ∀ t ∈ ts, IsStatement t) : IsStatement (.block a ts)
  | ifThen {a b c : α} {t : Tree α} {ts : List (Tree α)} (ht : IsExpression t)
      (hts : IsStatement (.block c ts)) :
      IsStatement (.ifElse a (.condition b t) (.block c ts) none)
  | ifElse {a b c d : α} {t : Tree α} {ts es : List (Tree α)} (ht : IsExpression t)
      (hts : IsStatement (.block c ts)) (hes : IsStatement (.block d es)) :
      IsStatement (.ifElse a (.condition b t) (.block c ts) (some (.block d es)))
  | whileLoop {a b c : α} {t : Tree α} {ts : List (Tree α)} (ht : IsExpression t)
      (hts : IsStatement (.block c ts)) : IsStatement (.whileLoop a (.condition b t) (.block c ts))

/-- Programs: blocks of statements. -/
def IsProgram (t : Tree α) : Prop := ∃ a ts, t = .block a ts ∧ ∀ s ∈ ts, IsStatement s

/-- Expressions stay expressions under other labels. -/
theorem IsExpression.relabel {t : Tree α} (h : t.IsExpression) (f : α → β) :
    (t.relabel f).IsExpression := by
  induction h with
  | literal h => exact .literal h
  | input => exact .input
  | var h => exact .var h
  | binary _ _ ihl ihr => exact .binary ihl ihr
  | unary hop _ ih => exact .unary hop ih
  | change hop h => exact .change hop h
  | assign h _ ih => exact .assign h ih
  | print _ ih => exact .print ih

/-- Numbering keeps expressions. -/
theorem IsExpression.numberFrom {t : Tree Span} (h : t.IsExpression) (n : Nat) :
    (t.numberFrom n).1.IsExpression := by
  induction h generalizing n with
  | literal h => exact .literal h
  | input => exact .input
  | var h => exact .var h
  | binary _ _ ihl ihr => exact .binary (ihl _) (ihr _)
  | unary hop _ ih => exact .unary hop (ih _)
  | change hop h => exact .change hop h
  | assign h _ ih => exact .assign h (ih _)
  | print _ ih => exact .print (ih _)

/-- A property of all numbered statements is one of the statements of a block. -/
theorem forall_numberStatements {P : Tree Mark → Prop} {ts : List (Tree Span)}
    (h : ∀ t ∈ ts, ∀ n, P (t.numberFrom n).1) (n : Nat) :
    ∀ t ∈ (numberStatements n ts).1, P t := by
  induction ts generalizing n with
  | nil =>
    intro t ht
    cases ht
  | cons s ts ih =>
    intro t ht
    rw [numberStatements] at ht
    rcases List.mem_cons.1 ht with rfl | ht
    · exact h s List.mem_cons_self n
    · exact ih (fun t ht => h t (List.mem_cons_of_mem _ ht)) _ t ht

/-- Numbering keeps statements. -/
theorem IsStatement.numberFrom {t : Tree Span} (h : t.IsStatement) (n : Nat) :
    (t.numberFrom n).1.IsStatement := by
  induction h generalizing n with
  | expression ht => exact .expression (ht.numberFrom _)
  | block _ ih => exact .block (forall_numberStatements ih _)
  | ifThen ht _ ih => exact .ifThen (ht.numberFrom _) (ih _)
  | ifElse ht _ _ iht ihe => exact .ifElse (ht.numberFrom _) (iht _) (ihe _)
  | whileLoop ht _ ih => exact .whileLoop (ht.numberFrom _) (ih _)

/-- Numbering keeps programs. -/
theorem IsProgram.number {t : Tree Span} (h : t.IsProgram) : t.number.IsProgram := by
  obtain ⟨a, ts, rfl, hts⟩ := h
  exact ⟨_, _, rfl, forall_numberStatements (fun s hs => (hts s hs).numberFrom) _⟩

end IntScript.Tree
