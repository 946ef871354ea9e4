import IntScript.Parse
import IntScript.Proofs.Tree.Tokens

/-!
# Printed expressions are read back

In front of the tokens of an expression the grammar takes just these tokens, provided that a
semicolon or a closing parenthesis follows, and the fragments are put together to a tree of the
same structure. Every rule is settled by the token in front of it: either the rule takes it, or the
next alternative is tried.
-/

namespace IntScript.Grammar

open Phrase (Takes Misses TakesMore misses_of_isUnlike)

/-- The tokens that follow an expression begin with a semicolon or a closing parenthesis. -/
inductive Closes : List (List Char) → Prop
  | semicolon (ts : List (List Char)) : Closes ([';'] :: ts)
  | paren (ts : List (List Char)) : Closes ([')'] :: ts)

section Operators

variable {t : List Char} {ts : List (List Char)}

/-- No operator stands behind an operand that is followed by the end of the expression. -/
theorem Closes.postfixOp_misses (h : Closes ts) : Misses (.call .postfixOp) ts := by
  cases h with
  | semicolon ts => exact .callSilent rfl (.oneOf (misses_of_isUnlike (by decide)))
  | paren ts => exact .callSilent rfl (.oneOf (misses_of_isUnlike (by decide)))

/-- The operation is over where the expression is. -/
theorem Closes.infixOp_misses (h : Closes ts) : Misses (.call .infixOp) ts := by
  cases h with
  | semicolon ts => exact .callSilent rfl (.oneOf (misses_of_isUnlike (by decide)))
  | paren ts => exact .callSilent rfl (.oneOf (misses_of_isUnlike (by decide)))

/-- An operator between operands is not taken for one behind the left operand. -/
theorem postfixOp_misses_symbol (op : BinaryOp) (ts : List (List Char)) :
    Misses (.call .postfixOp) (op.symbol.toList :: ts) := by
  refine .callSilent rfl (.oneOf (misses_of_isUnlike ?_))
  cases op <;> decide

/-- Nothing is assigned unless an equals sign comes next. -/
theorem assignOp_misses (h : dropText? ['='] t = none) : Misses (.call .assignOp) (t :: ts) :=
  .callSilent rfl (.seq_first (.word (Word.fails_exact (by decide) h)))

/-- An equals sign is half of a comparison if another one comes next. -/
theorem assignOp_misses_equals : Misses (.call .assignOp) (['=', '='] :: ts) := by
  intro c hc
  obtain ⟨after, hrest, -, -⟩ := hc.next
  have hscan : (Word.exact ['=']).scan c.rest = some (['='], '=' :: after) := by
    rw [hrest]
    rfl
  have hskip : (c.past ['='] ('=' :: after)).skip = c.past ['='] ('=' :: after) := rfl
  refine .callSilent rfl (.seqSecond (.word hscan) ?_)
  rw [hskip]
  exact .ahead rfl

/-- Nothing is assigned where an operator between operands comes next. -/
theorem assignOp_misses_symbol (op : BinaryOp) :
    Misses (.call .assignOp) (op.symbol.toList :: ts) := by
  cases op with
  | eq => exact assignOp_misses_equals
  | _ => exact assignOp_misses (by decide)

/-- Nothing is assigned at the end of an expression. -/
theorem Closes.assignOp_misses (h : Closes ts) : Misses (.call .assignOp) ts := by
  cases h with
  | semicolon ts => exact Grammar.assignOp_misses (by decide)
  | paren ts => exact Grammar.assignOp_misses (by decide)

/-- A single equals sign assigns. -/
theorem assignOp_takes (h : dropText? ['='] t = none) :
    Takes (.call .assignOp) (['='] :: t :: ts) (t :: ts) (· = []) := by
  refine .callSilent rfl
    ((Takes.seq (.word (Word.fits_exact _)) (.notAhead (by decide) h)).weaken ?_)
  rintro fs ⟨gs, hs, rfl, rfl, rfl⟩
  rfl

/-- The rule for an operator between operands. -/
def infixRule : BinaryOp → Rule
  | .add => .add
  | .sub => .sub
  | .mul => .mul
  | .div => .div
  | .mod => .rem
  | .eq => .eq
  | .ne => .ne
  | .lt => .lt
  | .le => .le
  | .gt => .gt
  | .ge => .ge
  | .and => .and
  | .or => .or

/-- The longer ones of two operators that begin alike are tried first, so every operator is taken
for what it is. -/
theorem infixOp_takes (op : BinaryOp) :
    Takes (.call .infixOp) (op.symbol.toList :: ts) ts fun fs =>
      ∃ pos, fs = [.word (infixRule op) pos op.symbol.toList] := by
  refine .callSilent rfl (Takes.oneOf (x := infixRule op) ?_ (misses_of_isUnlike ?_) ?_)
  · cases op <;> decide
  · cases op <;> decide
  · cases op <;> exact .callWord rfl (Word.fits_exact _)

end Operators

section Operands

variable {α : Type} {e : Tree α} {k : List (List Char)}

/-- One fragment that is built into a tree with the structure of the given one. -/
def IsBuilt (build : Fragment → Except ParseError (Tree Span)) (e : Tree α)
    (fs : List Fragment) : Prop :=
  ∃ f s, fs = [f] ∧ build f = .ok s ∧ s.skeleton = e.skeleton

/-- One fragment that counts as an operand with the structure of the given tree. -/
def IsOperand (e : Tree α) (fs : List Fragment) : Prop :=
  ∃ f s, fs = [f] ∧ Build.item f (Build.expression f) = .operand (.ok s) ∧
    s.skeleton = e.skeleton

/-- What is built into an expression counts as an operand. -/
theorem IsBuilt.isOperand {fs : List Fragment} (h : IsBuilt Build.expression e fs) :
    IsOperand e fs := by
  obtain ⟨f, s, rfl, hs, hskeleton⟩ := h
  refine ⟨f, s, rfl, ?_, hskeleton⟩
  rw [hs]
  unfold Build.expression at hs
  split at hs
  case h_7 => cases hs
  all_goals rfl

/-- An operand in parentheses. -/
theorem primary_takes_paren {ts : List (List Char)} {Q : List Fragment → Prop}
    (h : Takes (.call .expression) (ts ++ [')'] :: k) ([')'] :: k) Q) :
    Takes (.call .primary) (['('] :: (ts ++ [')'] :: k)) k Q := by
  have hinteger : Misses (.call .integer) (['('] :: (ts ++ [')'] :: k)) :=
    .callWord rfl (Word.fails_integer (by decide))
  have hinput : Misses (.call .input) (['('] :: (ts ++ [')'] :: k)) :=
    .callWord rfl (Word.fails_exact (by decide) (by decide))
  have hname : Misses (.call .identifier) (['('] :: (ts ++ [')'] :: k)) :=
    .callWord rfl (Word.fails_identifier (by decide))
  have hparens := Takes.seq (.word (Word.fits_exact ['('])) (h.seq (.word (Word.fits_exact [')'])))
  refine .callSilent rfl (.alt_second hinteger (.alt_second hinput (.alt_second hname ?_)))
  refine hparens.weaken ?_
  rintro fs ⟨_, _, rfl, rfl, gs, _, rfl, hgs, rfl⟩
  simpa using hgs

/-- A variable as an operand. -/
theorem primary_takes_var (a : α) {name : String} (h : isIdentifier name.toList = true) :
    Takes (.call .primary) (name.toList :: k) k (IsOperand (.var a name)) := by
  obtain ⟨c, cs, hname, hc⟩ := exists_letter h
  have hinteger : Misses (.call .integer) (name.toList :: k) := by
    rw [hname]
    exact .callWord rfl (Word.fails_integer (isDigit_of_isWordStart hc))
  have hinput : Misses (.call .input) (name.toList :: k) := by
    rw [hname]
    exact .callWord rfl (Word.fails_exact (by decide)
      (dropText?_word (by decide) (isWordChar_of_isWordStart hc)))
  refine .callSilent rfl (.alt_second hinteger (.alt_second hinput (.alt_first
    ((Takes.callWord rfl (Word.fits_identifier h)).weaken ?_))))
  rintro fs ⟨pos, rfl⟩
  refine ⟨_, _, rfl, rfl, ?_⟩
  rw [String.ofList_toList]
  rfl

/-- An operand is taken as a whole. -/
theorem primary_takes (he : e.IsExpression)
    (ih : e.isLeaf = false → ∀ k, Takes (.call .expression) (e.tokens ++ [')'] :: k) ([')'] :: k)
      (IsBuilt Build.expression e)) (k : List (List Char)) :
    Takes (.call .primary) (e.enclose e.tokens ++ k) k (IsOperand e) := by
  have hparen : e.isLeaf = false →
      Takes (.call .primary) (e.enclose e.tokens ++ k) k (IsOperand e) := by
    intro hleaf
    have htokens : e.enclose e.tokens ++ k = ['('] :: (e.tokens ++ [')'] :: k) := by
      simp [Tree.enclose, hleaf]
    rw [htokens]
    exact primary_takes_paren ((ih hleaf k).weaken fun fs hfs => hfs.isOperand)
  cases he with
  | @literal a v h =>
    obtain ⟨hne, hall⟩ := Decimal.chars_digits h
    refine .callSilent rfl
      (.alt_first ((Takes.callWord rfl (Word.fits_integer hne hall)).weaken ?_))
    rintro fs ⟨pos, rfl⟩
    refine ⟨_, .literal ⟨pos, pos + Text.byteLength (Value.chars v)⟩ v, rfl, ?_, rfl⟩
    rw [Build.expression, Build.number, Decimal.int64?_chars h]
    rfl
  | input =>
    have hinteger : Misses (.call .integer) (['?'] :: k) :=
      .callWord rfl (Word.fails_integer (by decide))
    refine .callSilent rfl (.alt_second hinteger (.alt_first
      ((Takes.callWord rfl (Word.fits_exact _)).weaken ?_)))
    rintro fs ⟨pos, rfl⟩
    exact ⟨_, _, rfl, rfl, rfl⟩
  | var h => exact primary_takes_var _ h
  | _ => exact hparen rfl

/-- No operator stands before an operand that begins here. -/
theorem StartsOperand.prefixOp_misses {t : List Char} (h : StartsOperand t)
    (ts : List (List Char)) : Misses (.call .prefixOp) (t :: ts) := by
  have hneg : Misses (.call .neg) (t :: ts) :=
    .callWord rfl (Word.fails_exact (by decide) (h.dropText? (by decide) (by decide) (by decide)))
  have hnot : Misses (.call .not) (t :: ts) :=
    .callWord rfl (Word.fails_exact (by decide) (h.dropText? (by decide) (by decide) (by decide)))
  exact .callSilent rfl (.alt hneg hnot)

/-- No operator stands before an operand. -/
theorem prefixOp_misses (he : e.IsExpression) (k : List (List Char)) :
    Misses (.call .prefixOp) (e.enclose e.tokens ++ k) := by
  obtain ⟨t, ts, heq, ht⟩ := he.operand_head
  rw [heq]
  exact ht.prefixOp_misses _

/-- An operand without operators before or behind it. -/
theorem operand_takes (he : e.IsExpression)
    (ih : e.isLeaf = false → ∀ k, Takes (.call .expression) (e.tokens ++ [')'] :: k) ([')'] :: k)
      (IsBuilt Build.expression e)) (hk : Misses (.call .postfixOp) k) :
    Takes Phrase.operand (e.enclose e.tokens ++ k) k (IsOperand e) := by
  have hbefore := Takes.many_none (prefixOp_misses he k)
  have hbehind := Takes.many_none hk
  refine (hbefore.seq ((primary_takes he ih k).seq hbehind)).weaken ?_
  rintro fs ⟨_, _, rfl, rfl, gs, _, rfl, hgs, rfl⟩
  simpa using hgs

/-- The rule for an operator with one operand. -/
def unaryRule : UnaryOp → Rule
  | .neg => .neg
  | .not => .not
  | .increment => .inc
  | .decrement => .dec

/-- An operand with an operator before it. -/
theorem operand_takes_before (he : e.IsExpression)
    (ih : e.isLeaf = false → ∀ k, Takes (.call .expression) (e.tokens ++ [')'] :: k) ([')'] :: k)
      (IsBuilt Build.expression e)) {op : UnaryOp} (hop : op.mutates = false)
    (hk : Misses (.call .postfixOp) k) :
    Takes Phrase.operand (op.symbol.toList :: (e.enclose e.tokens ++ k)) k fun fs =>
      ∃ pos gs, fs = .word (unaryRule op) pos op.symbol.toList :: gs ∧ IsOperand e gs := by
  have hop' : Takes (.call .prefixOp) (op.symbol.toList :: (e.enclose e.tokens ++ k))
      (e.enclose e.tokens ++ k) fun fs =>
        ∃ pos, fs = [.word (unaryRule op) pos op.symbol.toList] := by
    refine .callSilent rfl (Takes.oneOf (x := unaryRule op) ?_ (misses_of_isUnlike ?_) ?_)
    · cases op <;> first | decide | cases hop
    · cases op <;> first | decide | cases hop
    · cases op <;> exact .callWord rfl (Word.fits_exact _)
  have hbefore := Takes.many (by decide) hop' (.none (prefixOp_misses he k))
  have hbehind := Takes.many_none hk
  refine (hbefore.seq ((primary_takes he ih k).seq hbehind)).weaken ?_
  rintro fs ⟨_, _, rfl, ⟨_, _, rfl, ⟨pos, rfl⟩, rfl⟩, gs, _, rfl, hgs, rfl⟩
  exact ⟨pos, gs, by simp, hgs⟩

/-- A variable with an operator behind it. -/
theorem operand_takes_behind (a : α) {name : String} (h : isIdentifier name.toList = true)
    {op : UnaryOp} (hop : op.mutates = true) (hk : Misses (.call .postfixOp) k) :
    Takes Phrase.operand (name.toList :: op.symbol.toList :: k) k fun fs =>
      ∃ gs pos, fs = gs ++ [.word (unaryRule op) pos op.symbol.toList] ∧
        IsOperand (.var a name) gs := by
  have hop' : Takes (.call .postfixOp) (op.symbol.toList :: k) k fun fs =>
      ∃ pos, fs = [.word (unaryRule op) pos op.symbol.toList] := by
    refine .callSilent rfl (Takes.oneOf (x := unaryRule op) ?_ (misses_of_isUnlike ?_) ?_)
    · cases op <;> first | decide | cases hop
    · cases op <;> decide
    · cases op <;> exact .callWord rfl (Word.fits_exact _)
  have hbefore := Takes.many_none ((StartsOperand.name h).prefixOp_misses (op.symbol.toList :: k))
  have hbehind := Takes.many (by decide) hop' (.none hk)
  refine (hbefore.seq ((primary_takes_var a h).seq hbehind)).weaken ?_
  rintro fs ⟨_, _, rfl, rfl, gs, _, rfl, hgs, _, _, rfl, ⟨pos, rfl⟩, rfl⟩
  exact ⟨gs, pos, by simp, hgs⟩

end Operands

section Expressions

variable {α : Type} {e : Tree α} {ts us k : List (List Char)} {Q Q' : List Fragment → Prop}

/-- The fragment of an operation with the given parts. -/
def IsOperation (Q : List Fragment → Prop) (fs : List Fragment) : Prop :=
  ∃ start stop inner, fs = [.phrase .operation start stop inner] ∧ Q inner

/-- An operation of one operand. -/
theorem operation_takes (h : Takes Phrase.operand ts k Q) (hk : Closes k) :
    Takes (.call .operation) ts k (IsOperation Q) := by
  have hrest : Misses (.seq (.call .infixOp) Phrase.operand) k := .seq_first hk.infixOp_misses
  refine (Takes.callPhrase rfl ((h.seq (.many_none hrest)))).weaken ?_
  rintro fs ⟨start, stop, _, rfl, gs, _, rfl, hgs, rfl⟩
  exact ⟨start, stop, gs, by simp, hgs⟩

/-- An operation of two operands. -/
theorem operation_takes_between {op : BinaryOp}
    (hl : Takes Phrase.operand ts (op.symbol.toList :: us) Q)
    (hr : Takes Phrase.operand us k Q') (hk : Closes k) :
    Takes (.call .operation) ts k (IsOperation fun fs =>
      ∃ gs pos hs, fs = gs ++ .word (infixRule op) pos op.symbol.toList :: hs ∧ Q gs ∧ Q' hs) := by
  have hrest : Misses (.seq (.call .infixOp) Phrase.operand) k := .seq_first hk.infixOp_misses
  have hright := Takes.many (by decide) ((infixOp_takes op).seq hr) (.none hrest)
  refine (Takes.callPhrase rfl (hl.seq hright)).weaken ?_
  rintro fs ⟨start, stop, _, rfl, gs, _, rfl, hgs, _, _, rfl, ⟨_, hs, rfl, ⟨pos, rfl⟩, hhs⟩, rfl⟩
  exact ⟨start, stop, _, rfl, gs, pos, hs, by simp, hgs, hhs⟩

/-- An operation is an expression that is neither an assignment nor printed. -/
theorem expression_takes_operation (hassign : Misses (.call .assignment) ts)
    (hprint : Misses (.call .printExpression) ts) (h : Takes (.call .operation) ts us Q) :
    Takes (.call .expression) ts us Q :=
  .callSilent rfl (.alt_second hassign (.alt_second hprint h))

/-- No assignment begins with an operand that is not followed by an equals sign. -/
theorem assignment_misses (he : e.IsExpression) (hk : Misses (.call .assignOp) k) :
    Misses (.call .assignment) (e.enclose e.tokens ++ k) := by
  refine .callPhrase rfl ?_
  have hother : ∀ t ts, isIdentifier (t.takeWhile isWordChar) = false →
      Misses (.seq (.call .identifier) (.seq (.call .assignOp) (.call .expression))) (t :: ts) :=
    fun t ts h => .seq_first (.callWord rfl (Word.fails_identifier h))
  cases he with
  | @literal a v h =>
    obtain ⟨c, ds, hv, hc, -⟩ := exists_digits h
    refine hother (Value.chars v) k ?_
    have hstart : isWordStart c = false := by
      cases hs : isWordStart c with
      | false => rfl
      | true =>
        rw [isDigit_of_isWordStart hs] at hc
        cases hc
    rw [hv, List.takeWhile_cons_of_pos (isWordChar_of_isDigit hc), isIdentifier, hstart]
    rfl
  | input => exact hother _ _ (by decide)
  | @var a name h =>
    exact .seq_second (.callWord rfl (Word.fits_identifier h)) (.seq_first hk)
  | _ => exact hother ['('] _ (by decide)

/-- What begins with another word than `print` is not printed. -/
theorem printExpression_misses {t : List Char}
    (h : t.takeWhile isWordChar ≠ Keyword.printWord.spelling) :
    Misses (.call .printExpression) (t :: ts) :=
  .callPhrase rfl (.seq_first (.callWord rfl (Word.fails_keyword h)))

/-- What begins with an operand is not printed. -/
theorem printExpression_misses_operand (he : e.IsExpression) :
    Misses (.call .printExpression) (e.enclose e.tokens ++ k) := by
  obtain ⟨t, ts, heq, ht⟩ := he.operand_head
  rw [heq]
  exact printExpression_misses (ht.takeWhile_ne _)

/-- A leaf is an operation of its own. -/
theorem leaf_takes (he : e.IsExpression) (hleaf : e.isLeaf = true) (hk : Closes k) :
    Takes (.call .expression) (e.tokens ++ k) k (IsBuilt Build.expression e) := by
  have htokens : e.enclose e.tokens = e.tokens := by rw [Tree.enclose, if_pos hleaf]
  have hnoparen : e.isLeaf = false → ∀ k, Takes (.call .expression) (e.tokens ++ [')'] :: k)
      ([')'] :: k) (IsBuilt Build.expression e) := by
    intro hf
    rw [hleaf] at hf
    cases hf
  have hoperation := operation_takes (operand_takes he hnoparen hk.postfixOp_misses) hk
  have htakes := expression_takes_operation (assignment_misses he hk.assignOp_misses)
    (printExpression_misses_operand he) hoperation
  rw [htokens] at htakes
  refine htakes.weaken ?_
  rintro fs ⟨start, stop, _, rfl, f, s, rfl, hitem, hskeleton⟩
  refine ⟨_, s, rfl, ?_, hskeleton⟩
  rw [Build.expression, Build.items, Build.items, hitem]
  rfl

/-- In front of the tokens of an expression the grammar takes these and finds the expression. -/
theorem expression_takes (he : e.IsExpression) (hk : Closes k) :
    Takes (.call .expression) (e.tokens ++ k) k (IsBuilt Build.expression e) := by
  induction he generalizing k with
  | literal h => exact leaf_takes (.literal h) rfl hk
  | input => exact leaf_takes .input rfl hk
  | var h => exact leaf_takes (.var h) rfl hk
  | @binary a op l r hl hr ihl ihr =>
    have hleft := operand_takes hl (fun _ k => ihl (.paren k))
      (postfixOp_misses_symbol op (r.enclose r.tokens ++ k))
    have hright := operand_takes hr (fun _ k => ihr (.paren k)) hk.postfixOp_misses
    have htakes := expression_takes_operation
      (assignment_misses hl (assignOp_misses_symbol op)) (printExpression_misses_operand hl)
      (operation_takes_between hleft hright hk)
    rw [Tree.tokens, List.append_assoc, List.cons_append]
    refine htakes.weaken ?_
    rintro fs ⟨start, stop, _, rfl, _, pos, _, rfl, ⟨f, s, rfl, hf, hs⟩, g, u, rfl, hg, hu⟩
    refine ⟨_, .binary (s.label.combine u.label) op s u, rfl, ?_, ?_⟩
    · have hop : ∀ pos text x, Build.item (.word (infixRule op) pos text) x = .between op := by
        intro pos text x
        cases op <;> rfl
      rw [Build.expression, List.singleton_append, Build.items, Build.items, Build.items,
        Build.items, hf, hg, hop]
      rfl
    · change Tree.binary () op s.skeleton u.skeleton = .binary () op l.skeleton r.skeleton
      rw [hs, hu]
  | @unary a op t hop ht ih =>
    have hoperand := operand_takes_before ht (fun _ k => ih (.paren k)) hop hk.postfixOp_misses
    have hassign : Misses (.call .assignment) (op.symbol.toList :: (t.enclose t.tokens ++ k)) := by
      refine .callPhrase rfl (.seq_first (.callWord rfl (Word.fails_identifier ?_)))
      cases op <;> decide
    have hprint : Misses (.call .printExpression)
        (op.symbol.toList :: (t.enclose t.tokens ++ k)) := by
      refine printExpression_misses ?_
      cases op <;> decide
    have htakes := expression_takes_operation hassign hprint (operation_takes hoperand hk)
    rw [Tree.tokens, if_neg (by simp [hop]), List.cons_append]
    refine htakes.weaken ?_
    rintro fs ⟨start, stop, _, rfl, pos, _, rfl, f, s, rfl, hf, hs⟩
    refine ⟨_, .unary (Span.combine ⟨pos, pos + Text.byteLength op.symbol.toList⟩ s.label) op s,
      rfl, ?_, congrArg (Tree.unary () op) hs⟩
    have hitem : ∀ x, Build.item (.word (unaryRule op) pos op.symbol.toList) x =
        .before op ⟨pos, pos + Text.byteLength op.symbol.toList⟩ := by
      intro x
      cases op <;> first | rfl | cases hop
    rw [Build.expression, Build.items, Build.items, Build.items, hf, hitem]
    rfl
  | @change a b op name hop h =>
    have hoperand := operand_takes_behind b h hop hk.postfixOp_misses
    have hassign : Misses (.call .assignment) (name.toList :: op.symbol.toList :: k) := by
      refine assignment_misses (e := .var b name) (.var h) (assignOp_misses ?_)
      cases op <;> decide
    have hprint : Misses (.call .printExpression) (name.toList :: op.symbol.toList :: k) :=
      printExpression_misses ((StartsOperand.name h).takeWhile_ne _)
    have htakes := expression_takes_operation hassign hprint (operation_takes hoperand hk)
    rw [Tree.tokens, if_pos hop]
    refine htakes.weaken ?_
    rintro fs ⟨start, stop, _, rfl, _, pos, rfl, f, s, rfl, hf, hs⟩
    obtain ⟨c, rfl⟩ := Tree.exists_var_of_skeleton hs
    refine ⟨_, .unary (c.combine ⟨pos, pos + Text.byteLength op.symbol.toList⟩) op (.var c name),
      rfl, ?_, rfl⟩
    have hitem : ∀ x, Build.item (.word (unaryRule op) pos op.symbol.toList) x =
        .behind op ⟨pos, pos + Text.byteLength op.symbol.toList⟩ := by
      intro x
      cases op <;> first | rfl | cases hop
    rw [Build.expression, List.singleton_append, Build.items, Build.items, Build.items, hf, hitem]
    rfl
  | @assign a b name v h hv ih =>
    obtain ⟨t, ts, heq, ht⟩ := hv.head
    have hvalue : Takes (.call .assignOp) (['='] :: (v.tokens ++ k)) (v.tokens ++ k) (· = []) := by
      rw [heq, List.cons_append]
      exact assignOp_takes (ht.dropText? (by decide) (by decide))
    have htakes := Takes.callPhrase (r := .assignment) rfl
      (Takes.seq (.callWord rfl (Word.fits_identifier h)) (hvalue.seq (ih hk)))
    rw [Tree.tokens, Tree.tokens, List.append_assoc, List.cons_append]
    refine .callSilent rfl (.alt_first (htakes.weaken ?_))
    rintro fs ⟨start, stop, _, rfl, _, _, rfl, ⟨pos, rfl⟩, _, _, rfl, rfl, f, s, rfl, hf, hs⟩
    refine ⟨_, .assign ⟨start, stop⟩ (.var ⟨pos, pos + Text.byteLength name.toList⟩ name) s, rfl,
      ?_, congrArg (Tree.assign () (.var () name)) hs⟩
    change Build.expression
      (.phrase .assignment start stop [.word .identifier pos name.toList, f]) = _
    rw [Build.expression, Build.expression, hf, String.ofList_toList]
    rfl
  | @print a t ht ih =>
    have hassign : Misses (.call .assignment) (Keyword.printWord.spelling :: (t.tokens ++ k)) :=
      .callPhrase rfl (.seq_first (.callWord rfl (Word.fails_identifier (by decide))))
    have htakes := Takes.callPhrase (r := .printExpression) rfl
      (Takes.seq (.callWord rfl (Word.fits_keyword .printWord)) (ih hk))
    rw [Tree.tokens, List.cons_append]
    refine .callSilent rfl (.alt_second hassign (.alt_first (htakes.weaken ?_)))
    rintro fs ⟨start, stop, _, rfl, _, _, rfl, ⟨pos, rfl⟩, f, s, rfl, hf, hs⟩
    refine ⟨_, .print ⟨start, stop⟩ s, rfl, ?_, congrArg (Tree.print ()) hs⟩
    change Build.expression (.phrase .printExpression start stop [.word .printWord pos _, f]) = _
    rw [Build.expression, hf]
    rfl

end Expressions

end IntScript.Grammar
