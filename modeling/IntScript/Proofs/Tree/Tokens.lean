import IntScript.Proofs.Grammar.Taking
import IntScript.Proofs.Text.Decimal
import IntScript.Proofs.Tree.Shape

/-!
# Trees written as tokens

A tree is written as a row of tokens. Operands of operators stand in parentheses unless they are
single tokens, and blocks stand in braces unless they are whole programs. The tokens of a program
can be told apart by how they begin, and by nothing that follows them.
-/

namespace IntScript

namespace Tree

variable {α : Type}

/-- The tokens of an operand: those of a leaf as they are, all others in parentheses. -/
def enclose (t : Tree α) (ts : List (List Char)) : List (List Char) :=
  if t.isLeaf then ts else ['('] :: (ts ++ [[')']])

mutual

/-- The tokens of a tree. -/
def tokens : Tree α → List (List Char)
  | .literal _ v => [Value.chars v]
  | .input _ => [['?']]
  | .var _ name => [name.toList]
  | .binary _ op l r => l.enclose (tokens l) ++ op.symbol.toList :: r.enclose (tokens r)
  | .unary _ op t =>
    if op.mutates then tokens t ++ [op.symbol.toList]
    else op.symbol.toList :: t.enclose (tokens t)
  | .assign _ t v => tokens t ++ ['='] :: tokens v
  | .sequence _ e none => tokens e ++ [[';']]
  | .sequence _ e (some r) => tokens e ++ [';'] :: tokens r
  | .block _ ts => ['{'] :: (statementTokens ts ++ [['}']])
  | .condition _ t => tokens t
  | .ifElse _ c t none =>
    Grammar.Keyword.ifWord.spelling :: ['('] :: (tokens c ++ [')'] :: tokens t)
  | .ifElse _ c t (some e) =>
    Grammar.Keyword.ifWord.spelling :: ['('] ::
      (tokens c ++ [')'] :: (tokens t ++ Grammar.Keyword.elseWord.spelling :: tokens e))
  | .whileLoop _ c b =>
    Grammar.Keyword.whileWord.spelling :: ['('] :: (tokens c ++ [')'] :: tokens b)
  | .print _ t => Grammar.Keyword.printWord.spelling :: tokens t

/-- The tokens of statements in order. -/
def statementTokens : List (Tree α) → List (List Char)
  | [] => []
  | t :: ts => tokens t ++ statementTokens ts

end

/-- The tokens of a program: those of its statements, without the braces of other blocks. -/
def programTokens : Tree α → List (List Char)
  | .block _ ts => statementTokens ts
  | t => t.tokens

end Tree

namespace Grammar

/-- How operands begin. -/
inductive StartsOperand : List Char → Prop
  | number {v : Value} (h : 0 ≤ v.toInt) : StartsOperand (Value.chars v)
  | name {t : List Char} (h : isIdentifier t = true) : StartsOperand t
  | input : StartsOperand ['?']
  | paren : StartsOperand ['(']

/-- How expressions begin. -/
inductive StartsExpression : List Char → Prop
  | operand {t : List Char} (h : StartsOperand t) : StartsExpression t
  | neg : StartsExpression ['-']
  | not : StartsExpression ['!']
  | print : StartsExpression Keyword.printWord.spelling

/-- A token that begins with a word character. -/
theorem IsToken.of_word {c : Char} {t : List Char} (h : isWordChar c = true) :
    IsToken (c :: t) := by
  refine ⟨c, t, rfl, ?_, ?_⟩
  · cases hs : isSpace c with
    | false => rfl
    | true =>
      rw [isWordChar_of_isSpace hs] at h
      cases h
  · rintro rfl
    cases h

/-- A mark is not found at a token that begins with a word character. -/
theorem dropText?_word {a c : Char} {s t : List Char} (ha : isWordChar a = false)
    (hc : isWordChar c = true) : dropText? (a :: s) (c :: t) = none := by
  have hne : a ≠ c := by
    rintro rfl
    rw [ha] at hc
    cases hc
  simp [dropText?, hne]

/-- Numbers are not empty and consist of digits. -/
theorem exists_digits {v : Value} (h : 0 ≤ v.toInt) :
    ∃ c ds, Value.chars v = c :: ds ∧ c.isDigit = true ∧ ds.all Char.isDigit = true := by
  obtain ⟨hne, hall⟩ := Decimal.chars_digits h
  cases hv : Value.chars v with
  | nil => exact absurd hv hne
  | cons c ds =>
    rw [hv] at hall
    simp only [List.all_cons, Bool.and_eq_true] at hall
    exact ⟨c, ds, rfl, hall.1, hall.2⟩

/-- Digits are word characters. -/
theorem isWordChar_of_isDigit {c : Char} (h : c.isDigit = true) : isWordChar c = true := by
  simp only [isWordChar, Char.isAlphanum, h, Bool.or_true, Bool.true_or]

/-- Identifiers begin with a letter or an underscore. -/
theorem exists_letter {t : List Char} (h : isIdentifier t = true) :
    ∃ c cs, t = c :: cs ∧ isWordStart c = true := by
  cases t with
  | nil => cases h
  | cons c cs =>
    simp only [isIdentifier, Bool.and_eq_true] at h
    exact ⟨c, cs, rfl, h.1.1⟩

/-- A letter is not a digit. -/
theorem isDigit_of_isWordStart {c : Char} (h : isWordStart c = true) : c.isDigit = false := by
  have hstart : c.isUpper = true ∨ c.isLower = true ∨ c = '_' := by
    rw [isWordStart, Bool.or_eq_true, beq_iff_eq] at h
    rcases h with h | h
    · rcases Bool.or_eq_true_iff.1 h with h | h
      · exact .inl h
      · exact .inr (.inl h)
    · exact .inr (.inr h)
  cases hdigit : c.isDigit with
  | false => rfl
  | true =>
    have hc : 48 ≤ c.val.toNat ∧ c.val.toNat ≤ 57 := by
      have hd := Bool.and_eq_true_iff.1 hdigit
      exact ⟨of_decide_eq_true hd.1, of_decide_eq_true hd.2⟩
    rcases hstart with h | h | rfl
    · have hu : 65 ≤ c.val.toNat := (of_decide_eq_true h).1
      omega
    · have hl : 97 ≤ c.val.toNat := of_decide_eq_true (Bool.and_eq_true_iff.1 h).1
      omega
    · cases hdigit

/-- Words that begin operands are tokens. -/
theorem StartsOperand.isToken {t : List Char} (h : StartsOperand t) : IsToken t := by
  cases h with
  | number h =>
    obtain ⟨c, ds, heq, hc, -⟩ := exists_digits h
    rw [heq]
    exact .of_word (isWordChar_of_isDigit hc)
  | name h =>
    obtain ⟨c, cs, rfl, hc⟩ := exists_letter h
    exact .of_word (isWordChar_of_isWordStart hc)
  | input => exact ⟨_, _, rfl, by decide, by decide⟩
  | paren => exact ⟨_, _, rfl, by decide, by decide⟩

/-- Marks that do not begin operands are not found where an operand begins. -/
theorem StartsOperand.dropText? {t : List Char} (h : StartsOperand t) {a : Char} {s : List Char}
    (ha : isWordChar a = false) (hinput : a ≠ '?') (hparen : a ≠ '(') :
    dropText? (a :: s) t = none := by
  cases h with
  | number h =>
    obtain ⟨c, ds, heq, hc, -⟩ := exists_digits h
    rw [heq]
    exact dropText?_word ha (isWordChar_of_isDigit hc)
  | name h =>
    obtain ⟨c, cs, rfl, hc⟩ := exists_letter h
    exact dropText?_word ha (isWordChar_of_isWordStart hc)
  | input => simp [Grammar.dropText?, hinput]
  | paren => simp [Grammar.dropText?, hparen]

/-- No operand begins with a reserved word. -/
theorem StartsOperand.takeWhile_ne {t : List Char} (h : StartsOperand t) (k : Keyword) :
    t.takeWhile isWordChar ≠ k.spelling := by
  cases h with
  | number h =>
    obtain ⟨c, ds, heq, hc, -⟩ := exists_digits h
    rw [heq, List.takeWhile_cons_of_pos (isWordChar_of_isDigit hc)]
    intro hk
    have hletter : k.spelling.head?.all fun c => !c.isDigit := by cases k <;> decide
    rw [← hk] at hletter
    simp [hc] at hletter
  | name h =>
    have hall := Word.all_of_isIdentifier h
    have hrun := takeWhile_run hall (by simp : ∀ c ∈ ([] : List Char).head?, isWordChar c = false)
    rw [List.append_nil] at hrun
    rw [hrun]
    rintro rfl
    cases k <;> cases h
  | input => cases k <;> decide
  | paren => cases k <;> decide

/-- Marks that do not begin expressions are not found where an expression begins. -/
theorem StartsExpression.dropText? {t : List Char} (h : StartsExpression t) {a : Char}
    (ha : isWordChar a = false) (hmarks : a ∉ ['?', '(', '-', '!']) :
    dropText? [a] t = none := by
  simp only [List.mem_cons, List.not_mem_nil, or_false, not_or] at hmarks
  obtain ⟨hinput, hparen, hneg, hnot⟩ := hmarks
  cases h with
  | operand h => exact h.dropText? ha hinput hparen
  | neg => simp [Grammar.dropText?, hneg]
  | not => simp [Grammar.dropText?, hnot]
  | print => exact dropText?_word ha (by decide)

/-- No expression begins with a reserved word other than `print`. -/
theorem StartsExpression.takeWhile_ne {t : List Char} (h : StartsExpression t) {k : Keyword}
    (hk : k ≠ .printWord) : t.takeWhile isWordChar ≠ k.spelling := by
  cases h with
  | operand h => exact h.takeWhile_ne k
  | neg => cases k <;> decide
  | not => cases k <;> decide
  | print =>
    cases k with
    | printWord => exact absurd rfl hk
    | _ => decide

end Grammar

namespace Tree

open Grammar (IsToken StartsOperand StartsExpression Keyword)

variable {α : Type}

/-- The tokens of an expression that is a leaf, and those of all others. -/
theorem IsExpression.enclose_eq {e : Tree α} (he : e.IsExpression) :
    (∃ t, e.tokens = [t] ∧ e.enclose e.tokens = [t] ∧ StartsOperand t) ∨
      e.enclose e.tokens = ['('] :: (e.tokens ++ [[')']]) := by
  cases he with
  | literal h => exact .inl ⟨_, rfl, rfl, .number h⟩
  | input => exact .inl ⟨_, rfl, rfl, .input⟩
  | var h => exact .inl ⟨_, rfl, rfl, .name h⟩
  | _ => exact .inr rfl

/-- Operands begin with a number, a name, a question mark or a parenthesis. -/
theorem IsExpression.operand_head {e : Tree α} (he : e.IsExpression) :
    ∃ t ts, e.enclose e.tokens = t :: ts ∧ StartsOperand t := by
  rcases he.enclose_eq with ⟨t, -, heq, ht⟩ | heq
  · exact ⟨t, [], heq, ht⟩
  · exact ⟨_, _, heq, .paren⟩

/-- How an expression begins. -/
theorem IsExpression.head {e : Tree α} (he : e.IsExpression) :
    ∃ t ts, e.tokens = t :: ts ∧ StartsExpression t := by
  cases he with
  | literal h => exact ⟨_, _, rfl, .operand (.number h)⟩
  | input => exact ⟨_, _, rfl, .operand .input⟩
  | var h => exact ⟨_, _, rfl, .operand (.name h)⟩
  | binary hl hr =>
    obtain ⟨t, ts, heq, ht⟩ := hl.operand_head
    rw [tokens, heq]
    exact ⟨_, _, rfl, .operand ht⟩
  | @unary a op t hop ht =>
    rw [tokens, if_neg (by simp [hop])]
    cases op with
    | neg => exact ⟨_, _, rfl, .neg⟩
    | not => exact ⟨_, _, rfl, .not⟩
    | _ => cases hop
  | change hop h =>
    rw [tokens, if_pos hop]
    exact ⟨_, _, rfl, .operand (.name h)⟩
  | assign h hv => exact ⟨_, _, rfl, .operand (.name h)⟩
  | print ht => exact ⟨_, _, rfl, .print⟩

/-- The symbols of operators are tokens. -/
theorem isToken_symbol (op : BinaryOp) : IsToken op.symbol.toList := by
  cases op <;> exact ⟨_, _, rfl, by decide, by decide⟩

/-- The symbols of operators with one operand are tokens. -/
theorem isToken_unarySymbol (op : UnaryOp) : IsToken op.symbol.toList := by
  cases op <;> exact ⟨_, _, rfl, by decide, by decide⟩

/-- Reserved words are tokens. -/
theorem isToken_keyword (k : Keyword) : IsToken k.spelling := by
  cases k <;> exact ⟨_, _, rfl, by decide, by decide⟩

/-- Marks of one character are tokens. -/
theorem isToken_mark {c : Char} (hc : Grammar.isSpace c = false) : IsToken [c] :=
  ⟨c, [], rfl, hc, fun _ => rfl⟩

/-- The tokens of an operand are tokens if those of the expression are. -/
theorem forall_enclose {e : Tree α} (h : ∀ t ∈ e.tokens, IsToken t) :
    ∀ t ∈ e.enclose e.tokens, IsToken t := by
  rw [enclose]
  split
  · exact h
  · rw [List.forall_mem_cons, List.forall_mem_append, List.forall_mem_singleton]
    exact ⟨isToken_mark (by decide), h, isToken_mark (by decide)⟩

/-- Expressions are written with tokens. -/
theorem IsExpression.forall_tokens {e : Tree α} (he : e.IsExpression) :
    ∀ t ∈ e.tokens, IsToken t := by
  induction he with
  | literal h => exact List.forall_mem_singleton.2 (StartsOperand.number h).isToken
  | input => exact List.forall_mem_singleton.2 (isToken_mark (by decide))
  | var h => exact List.forall_mem_singleton.2 (StartsOperand.name h).isToken
  | @binary a op l r _ _ ihl ihr =>
    rw [tokens, List.forall_mem_append, List.forall_mem_cons]
    exact ⟨forall_enclose ihl, isToken_symbol op, forall_enclose ihr⟩
  | @unary a op s hop _ ih =>
    rw [tokens, if_neg (by simp [hop]), List.forall_mem_cons]
    exact ⟨isToken_unarySymbol op, forall_enclose ih⟩
  | @change a b op name hop h =>
    rw [tokens, if_pos hop, tokens, List.forall_mem_append, List.forall_mem_singleton,
      List.forall_mem_singleton]
    exact ⟨(StartsOperand.name h).isToken, isToken_unarySymbol op⟩
  | @assign a b name v h _ ih =>
    rw [tokens, tokens, List.forall_mem_append, List.forall_mem_singleton, List.forall_mem_cons]
    exact ⟨(StartsOperand.name h).isToken, isToken_mark (by decide), ih⟩
  | print _ ih =>
    rw [tokens, List.forall_mem_cons]
    exact ⟨isToken_keyword _, ih⟩

/-- Statements in order are written with tokens if each of them is. -/
theorem forall_statementTokens {ts : List (Tree α)} (h : ∀ s ∈ ts, ∀ t ∈ s.tokens, IsToken t) :
    ∀ t ∈ statementTokens ts, IsToken t := by
  induction ts with
  | nil =>
    intro t ht
    cases ht
  | cons s ts ih =>
    rw [List.forall_mem_cons] at h
    rw [statementTokens, List.forall_mem_append]
    exact ⟨h.1, ih h.2⟩

/-- Statements are written with tokens. -/
theorem IsStatement.forall_tokens {s : Tree α} (hs : s.IsStatement) :
    ∀ t ∈ s.tokens, IsToken t := by
  induction hs with
  | expression he =>
    rw [tokens, List.forall_mem_append, List.forall_mem_singleton]
    exact ⟨he.forall_tokens, isToken_mark (by decide)⟩
  | block _ ih =>
    rw [tokens, List.forall_mem_cons, List.forall_mem_append, List.forall_mem_singleton]
    exact ⟨isToken_mark (by decide), forall_statementTokens ih, isToken_mark (by decide)⟩
  | ifThen he _ ih =>
    rw [tokens, tokens, List.forall_mem_cons, List.forall_mem_cons, List.forall_mem_append,
      List.forall_mem_cons]
    exact ⟨isToken_keyword _, isToken_mark (by decide), he.forall_tokens, isToken_mark (by decide),
      ih⟩
  | ifElse he _ _ iht ihe =>
    rw [tokens, tokens, List.forall_mem_cons, List.forall_mem_cons, List.forall_mem_append,
      List.forall_mem_cons, List.forall_mem_append]
    exact ⟨isToken_keyword _, isToken_mark (by decide), he.forall_tokens, isToken_mark (by decide),
      iht, List.forall_mem_cons.2 ⟨isToken_keyword _, ihe⟩⟩
  | whileLoop he _ ih =>
    rw [tokens, tokens, List.forall_mem_cons, List.forall_mem_cons, List.forall_mem_append,
      List.forall_mem_cons]
    exact ⟨isToken_keyword _, isToken_mark (by decide), he.forall_tokens, isToken_mark (by decide),
      ih⟩

/-- Programs are written with tokens. -/
theorem IsProgram.forall_tokens {t : Tree α} (h : t.IsProgram) :
    ∀ u ∈ t.programTokens, IsToken u := by
  obtain ⟨a, ts, rfl, hts⟩ := h
  exact forall_statementTokens fun s hs => (hts s hs).forall_tokens

end Tree

end IntScript
