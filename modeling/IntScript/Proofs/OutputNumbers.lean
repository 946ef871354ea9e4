import IntScript.Proofs.ProgramLog

/-!
# Output is input

A program prints each number in a line of its own, and a program reads numbers with blanks between
them. So what one program prints another one can read: it gets the same numbers in the same order
and finds the input exhausted behind them. This holds for every run on an output that takes
everything, however it ends, and for all numbers that there are.
-/

namespace IntScript

namespace Text

/-- What a value is printed as has no blanks. -/
theorem not_isBlank_of_mem_chars {v : Value} {c : Char} (h : c ∈ Value.chars v) :
    isBlank c = false := by
  rcases Decimal.mem_chars h with rfl | hdigit
  · decide
  · have hrange : 48 ≤ c.toNat ∧ c.toNat ≤ 57 := by
      simp only [Char.isDigit, Bool.and_eq_true, decide_eq_true_eq] at hdigit
      exact hdigit
    simp only [isBlank, Bool.or_eq_false_iff, Bool.and_eq_false_iff, decide_eq_false_iff_not,
      beq_eq_false_iff_ne]
    omega

/-- The runs of the lines of some values are what these are printed as. -/
theorem runs_lines (vs : List Value) :
    runs (vs.flatMap fun v => Value.chars v ++ ['\n']) = vs.map Value.chars := by
  induction vs with
  | nil => rfl
  | cons v vs ih =>
    have hword : runs (Value.chars v) = [Value.chars v] := by
      rw [runs_of_not_blank fun c => not_isBlank_of_mem_chars, List.isEmpty_eq_false_iff.2
        (Decimal.chars_ne_nil v)]
      rfl
    rw [List.flatMap_cons, List.append_assoc, List.singleton_append, runs_append_blank rfl, hword,
      ih]
    rfl

end Text

/-- The bytes of the lines of some values are those of a text. -/
theorem Value.lines_eq_encode (vs : List Value) :
    Value.lines vs = Text.encode (vs.flatMap fun v => Value.chars v ++ ['\n']) := by
  rw [Value.lines, Text.encode_eq_flatMap, List.flatMap_assoc]
  simp only [Text.encode_eq_flatMap]

/-- The lines of some values are read as these values. -/
theorem Input.remaining_lines (vs : List Value) :
    (Input.ofBytes (Value.lines vs) false).remaining = vs.map .ok := by
  have hnumber : ∀ v, number (Value.chars v) = .ok v := by
    intro v
    rw [number, Decimal.int64?_chars_self]
  change (splitLines (Value.lines vs)).flatMap lineResults = _
  rw [Value.lines_eq_encode, lineResults_encode, Text.runs_lines, List.map_map]
  exact List.map_congr_left fun v _ => hnumber v

-- the smallest number of all has no positive counterpart
example : (List.range 3).map (Input.ofBytes (Value.lines [Int64.minValue, 7]) false).resultAt =
    [.ok Int64.minValue, .ok 7, .error .exhausted] := by
  cbv

namespace Program

variable {p : Program} {limits : Limits} {patience : Nat} {input : Input} {output : Output}
  {before after : Log} {m : Machine} {v : Value}

/-- A value is printed by a print statement whose operand has just yielded it. -/
theorem yield_before_print {n : Tree Mark}
    (h : p.log limits patience input output = before ++ (.print n v, m) :: after) :
    ∃ a e earlier m', n = .print a e ∧ n ∈ p.root.nodes ∧
      before = earlier ++ [(.yield e v, m')] := by
  have hmay := (p.abides_course limits patience).log h
  generalize hprint : Request.print n v = r at hmay
  cases hmay with
  | print hn hlast =>
    cases hprint
    obtain ⟨earlier, m', rfl⟩ := Log.exists_of_last? hlast
    exact ⟨_, _, earlier, m', rfl, hn, rfl⟩
  | _ => cases hprint

/-- A print statement yields the value that it has just printed. -/
theorem print_before_yield {a : Mark} {e : Tree Mark}
    (h : p.log limits patience input output = before ++ (.yield (.print a e) v, m) :: after) :
    ∃ earlier m', before = earlier ++ [(.print (.print a e) v, m')] := by
  have hmay := (p.abides_course limits patience).log h
  cases hmay with
  | yield _ hlast => exact Log.exists_of_last? (hlast a e rfl)

/-- A run on an output that takes everything has written the lines of the values that it printed,
however it ends. -/
theorem written_run (h : output.limit = none) :
    (p.run limits patience input output).2.output.written =
      output.written ++ Value.lines (p.log limits patience input output).printed := by
  have hlimit : (p.start input output).output.limit = none := h
  rw [run_snd, Course.output_exec hlimit]
  rfl

/-- What a run prints on an output that takes everything is read back. However the run ends, asking
for one number after the other gives the values that were printed, in order, and then the input is
exhausted. Each of them was printed by a print statement whose operand had just yielded it, and a
print statement that comes to its end has printed its value once, directly before. -/
theorem output_reads_back (p : Program) (limits : Limits) (patience : Nat) (input : Input)
    (flushFails : Bool) :
    (∀ k, (Input.ofBytes
        (p.run limits patience input { flushFails }).2.output.written.toList false).resultAt k =
      ((p.log limits patience input { flushFails }).printed[k]?.map .ok).getD
        (.error .exhausted)) ∧
    (∀ before after n v m,
      p.log limits patience input { flushFails } = before ++ (.print n v, m) :: after →
        ∃ a e earlier m', n = .print a e ∧ n ∈ p.root.nodes ∧
          before = earlier ++ [(.yield e v, m')]) ∧
    ∀ before after a e v m,
      p.log limits patience input { flushFails } = before ++ (.yield (.print a e) v, m) :: after →
        ∃ earlier m', before = earlier ++ [(.print (.print a e) v, m')] := by
  refine ⟨fun k => ?_, fun _ _ _ _ _ => yield_before_print, fun _ _ _ _ _ _ => print_before_yield⟩
  rw [written_run rfl, Array.toList_appendList, List.nil_append, Input.resultAt_eq rfl,
    Input.remaining_lines, List.getElem?_map]

/-- With the input `1 -5 0` the loop prints `-5`, which is read back. -/
theorem output_reads_back_echo :
    ∃ p, compile "while(?)print ?;" = .ok p ∧
      (p.log {} 9 (.ofBytes [49, 32, 45, 53, 32, 48] false) {}).printed = [-5] ∧
      let written := (p.run {} 9 (.ofBytes [49, 32, 45, 53, 32, 48] false) {}).2.output.written
      (Input.ofBytes written.toList false).resultAt 0 = .ok (-5) ∧
        (Input.ofBytes written.toList false).resultAt 1 = .error .exhausted := by
  have hparse : parse "while(?)print ?;" = .ok echoTree := by cbv
  have hcompile := compile_of_parse hparse
  generalize (resolve .empty _).1 = layout at hcompile
  generalize (resolve .empty _).2 = ann at hcompile
  have hprinted : ∀ stack, ((Course.ofTree ⟨{}, ann, true, 9⟩ 0 echoTree.number).log
      ⟨{}, ann, true, 9⟩
      ⟨stack, .ofBytes [49, 32, 45, 53, 32, 48] false, {}, 0⟩).printed = [-5] := by
    intro stack
    cbv
  have hlog : (Program.log ⟨"while(?)print ?;", echoTree.number, layout, ann⟩ {} 9
      (.ofBytes [49, 32, 45, 53, 32, 48] false) {}).printed = [-5] := hprinted _
  obtain ⟨hback, -, -⟩ := output_reads_back ⟨"while(?)print ?;", echoTree.number, layout, ann⟩ {} 9
    (.ofBytes [49, 32, 45, 53, 32, 48] false) false
  refine ⟨_, hcompile, hlog, ?_, ?_⟩
  all_goals rw [hback, hlog]; rfl

end Program
end IntScript
