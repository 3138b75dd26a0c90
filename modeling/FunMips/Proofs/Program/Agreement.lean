import FunMips.Proofs.Program.Prediction
import FunMips.Proofs.Token.Comparison
import FunMips.Proofs.Token.Lexemes

/-!
# Tokens on demand and all tokens at once

The parser keeps in step on two feeds that hand out the same tokens (`Comparison.program`), so it
does not matter whether the lexer has run before it or runs as tokens are asked for. Where the
lexer meets an error, the parser that asks for tokens either runs into it, or has refused the
tokens before it, and then whatever might have followed them does not matter either
(`parse_agrees`).
-/

namespace FunMips

open Cursor

namespace Comparison

variable {σ τ : Type} [TokenFeed σ] [TokenFeed τ] {c : Comparison σ τ}
variable {sub : Parse σ Expr} {twin : Parse τ Expr}

/-! ## The grammar, part by part -/

theorem inStep_args (onSub : c.InStep Eq sub twin) :
    c.InStep Eq (Parser.args sub) (Parser.args twin) := by
  refine .onKind fun first second aligned => ?_
  by_cases isParen : first.current.kind = .rightParen
  · rw [if_pos isParen, if_pos isParen]
    exact .stay rfl aligned
  · rw [if_neg isParen, if_neg isParen]
    exact inStep_commaSeparated onSub first second aligned

/-- A call, after its name. -/
theorem inStep_callRest (onSub : c.InStep Eq sub twin) (name : String) :
    c.InStep Eq
      (do
        let _ ← expect c.source .leftParen "expected '(' to start the argument list"
        let args ← Parser.args sub
        let _ ← expect c.source .rightParen "expected ')' after the arguments"
        return Expr.call name args)
      (do
        let _ ← expect c.other .leftParen "expected '(' to start the argument list"
        let args ← Parser.args twin
        let _ ← expect c.other .rightParen "expected ')' after the arguments"
        return Expr.call name args) := by
  refine (inStep_expect (by decide)).bind fun _ _ _ => ?_
  refine (inStep_args onSub).andThen fun args => ?_
  exact (inStep_expect (by decide)).bind fun _ _ _ => .pure rfl

theorem inStep_conditional (onSub : c.InStep Eq sub twin) :
    c.InStep Eq (Parser.conditional c.source sub) (Parser.conditional c.other twin) := by
  refine (inStep_expect (by decide)).bind fun _ _ _ => onSub.andThen fun left => ?_
  refine (inStep_expect (by decide)).bind fun _ _ _ => onSub.andThen fun right => ?_
  refine (inStep_expect (by decide)).bind fun _ _ _ => onSub.andThen fun whenEqual => ?_
  exact (inStep_expect (by decide)).bind fun _ _ _ => onSub.andThen fun otherwise => .pure rfl

theorem inStep_primary (onSub : c.InStep Eq sub twin) :
    c.InStep Eq (Parser.primary c.source sub) (Parser.primary c.other twin) := by
  refine .onKind fun first second aligned => ?_
  cases isKind : first.current.kind with
  | number =>
    refine (inStep_expect (by decide)).bind (fun token copy same => ?_) first second aligned
    rw [c.value_eq same]
    exact .pure rfl
  | ident =>
    refine agree_peekKind aligned (by rw [isKind]; decide) fun ahead beyond token copy looked => ?_
    by_cases isParen : token.kind = .leftParen
    · rw [if_pos isParen, if_pos isParen]
      refine (looked.agree_expectName aligned isKind).bind fun ⟨name, left⟩ ⟨_, right⟩ named => ?_
      obtain rfl := named.same
      exact inStep_callRest onSub name left right named.aligned
    · rw [if_neg isParen, if_neg isParen]
      refine (looked.agree_expectName aligned isKind).bind fun ⟨name, left⟩ ⟨_, right⟩ named => ?_
      obtain rfl := named.same
      exact .stay rfl named.aligned
  | ifWord => exact inStep_conditional onSub first second aligned
  | _ => exact inStep_unexpected first second aligned

theorem inStep_chain (onSub : c.InStep Eq sub twin) :
    c.InStep Eq (Parser.chain c.source sub) (Parser.chain c.other twin) := by
  refine (inStep_primary onSub).andThen fun operand => .onKind fun first second aligned => ?_
  cases chosen : Parser.binOp? first.current.kind with
  | none => exact .stay rfl aligned
  | some op =>
    have more : first.current.kind ≠ .eof := fun isEnd => by rw [isEnd] at chosen; cases chosen
    exact (agree_advance aligned more).bind fun left right moved =>
      onSub.andThen (fun right => .pure rfl) left.2 right.2 moved.aligned

theorem inStep_tooDeep : c.InStep Eq (Parser.tooDeep c.source) (Parser.tooDeep c.other) := by
  intro first second aligned
  refine (c.locate aligned.current).bind fun place other same => ?_
  exact .stop (same.nestingTooDeep maxNesting)

/-- Both open a level, and close it however their parsers end. -/
theorem agree_nested {first : Cursor σ} {second : Cursor τ} (inner : c.InStep Eq sub twin)
    (aligned : c.Aligned first second) (room : first.depth < maxNesting) :
    c.Agree Eq first second (Parser.nested c.source sub first)
      (Parser.nested c.other twin second) := by
  obtain ⟨counts, others⟩ := c.counts
  unfold Parser.nested
  rw [aligned.depth, counts.enter _ room, others.enter _ room, ok_bind, ok_bind]
  have inside := inner { first with depth := first.depth + 1 }
    { second with depth := first.depth + 1 }
    ⟨aligned.current, aligned.lookahead, aligned.feeds, rfl⟩
  generalize sub { first with depth := first.depth + 1 } = answer at inside ⊢
  generalize twin { second with depth := first.depth + 1 } = copy at inside ⊢
  cases inside with
  | @answer result copied left =>
    have depth : result.2.depth = first.depth + 1 := left.depth
    have same : copied.2.depth = first.depth + 1 := left.aligned.depth.trans depth
    dsimp only
    rw [depth, same, counts.leave _ room, others.leave _ room]
    exact .answer ⟨left.same,
      ⟨left.aligned.current, left.aligned.lookahead, left.aligned.feeds, rfl⟩, left.moved, rfl⟩
  | stop ends =>
    dsimp only
    rw [counts.leave _ room, others.leave _ room]
    exact .stop ends
  | breaks breaks =>
    dsimp only
    rw [counts.leave _ room]
    exact .breaks breaks

theorem inStep_expr (levels : Nat) :
    c.InStep Eq (Parser.expr c.source levels) (Parser.expr c.other levels) := by
  induction levels with
  | zero => exact inStep_tooDeep
  | succ levels ih =>
    intro first second aligned
    rw [Parser.expr_succ, Parser.expr_succ, aligned.depth]
    by_cases room : first.depth < maxNesting
    · rw [if_pos room, if_pos room]
      exact agree_nested (inStep_chain ih) aligned room
    · rw [if_neg room, if_neg room]
      exact inStep_tooDeep first second aligned

theorem inStep_params : c.InStep Eq (Parser.params c.source) (Parser.params c.other) := by
  refine .onKind fun first second aligned => ?_
  by_cases isName : first.current.kind = .ident
  · rw [if_pos isName, if_pos isName]
    exact inStep_commaSeparated inStep_expectName first second aligned
  · rw [if_neg isName, if_neg isName]
    exact .stay rfl aligned

theorem inStep_function : c.InStep Eq (Parser.function c.source) (Parser.function c.other) := by
  refine inStep_expectName.andThen fun name => ?_
  refine (inStep_expect (by decide)).bind fun _ _ _ => inStep_params.andThen fun params => ?_
  refine (inStep_expect (by decide)).bind fun _ _ _ => ?_
  refine (inStep_expect (by decide)).bind fun _ _ _ => ?_
  exact (inStep_expr maxNesting).andThen fun body => .pure rfl

theorem inStep_decl : c.InStep Eq (Parser.decl c.source) (Parser.decl c.other) := by
  refine (inStep_accept (by decide)).andThen fun isDef => ?_
  cases isDef with
  | true => exact inStep_function.andThen fun function => .pure rfl
  | false => exact (inStep_expr maxNesting).andThen fun e => .pure rfl

/-- The cursors that stand in front of two feeds are aligned. -/
theorem ofFeed {feed : σ} {copy : τ} (feeds : c.Feeds feed copy) :
    SameAnswer c.Breaks c.Ends c.Aligned (Cursor.ofFeed c.source feed)
      (Cursor.ofFeed c.other copy) := by
  refine c.ask feeds fun token twin rest others _ _ tokens later => ?_
  exact .answer ⟨tokens, ⟨rfl, rfl⟩, later, rfl⟩

/-- The same program is read from both feeds, or none. A program is read up to an end token. -/
theorem program {feed : σ} {copy : τ} (feeds : c.Feeds feed copy) :
    SameAnswer c.Breaks c.Ends
      (fun program other => program = other ∧ ∃ last twin, c.Tokens last twin ∧ last.kind = .eof)
      (Parser.program c.source feed) (Parser.program c.other copy) := by
  refine (c.ofFeed feeds).bind fun first second aligned => ?_
  have inStep := inStep_untilEnd inStep_decl first second aligned
  have ended {decls : List Decl} {after : Cursor σ}
      (found : untilEnd (Parser.decl c.source) first = .ok (decls, after)) :=
    current_of_untilEnd found
  generalize untilEnd (Parser.decl c.source) first = answer at inStep ended
  generalize untilEnd (Parser.decl c.other) second = copied at inStep
  cases inStep with
  | answer left =>
    exact .answer ⟨congrArg Program.mk left.same, _, _, left.aligned.current, ended rfl⟩
  | stop ends => exact .stop ends
  | breaks breaks => exact .breaks breaks

end Comparison

/-! ## Lexers -/

namespace Lexer

/-- The tokens that a walk hands out before it ends or meets an error. -/
def produced (lexer : Lexer) : List Token :=
  match _ : lexer.next with
  | (.ok (some token), rest) => token :: produced rest
  | _ => []
termination_by lexer.remaining
decreasing_by exact remaining_lt_of_next (by assumption)

variable {lexer : Lexer} {tokens : List Token} {stop : Stop}

theorem produced_of_next {rest : Lexer} {token : Token}
    (found : lexer.next = (.ok (some token), rest)) : lexer.produced = token :: rest.produced := by
  rw [produced]
  split
  · next same =>
    cases same.symm.trans found
    rfl
  · next other => exact absurd found (other _ _)

/-- What a walk that has not ended can do: meet an error, or hand out a token. Only after the end
token it has ended. -/
theorem next_cases (unfinished : lexer.finished = false) :
    (∃ stop, TokenFeed.next lexer = .error stop ∧ lexer.toList = .error stop ∧
      lexer.produced = []) ∨
    ∃ token rest, TokenFeed.next lexer = .ok (some token, rest) ∧
      (lexer.toList = rest.toList >>= fun tokens => .ok (token :: tokens)) ∧
      lexer.produced = token :: rest.produced ∧
      (token.kind ≠ .eof ∧ token.Readable lexer.source ∧ rest.source = lexer.source ∧
          rest.finished = false ∨
        token = Token.endOf lexer.source ∧ rest.toList = .ok []) := by
  have asked : TokenFeed.next lexer = nextOfLexer lexer := rfl
  rw [asked]
  unfold nextOfLexer
  cases found : lexer.next with
  | mk answer rest =>
    cases answer with
    | error stop =>
      refine .inl ⟨stop, rfl, ?_, ?_⟩
      · rw [toList]
        split
        · next same => cases same.symm.trans found; rfl
        · next same => cases same.symm.trans found
        · next same => cases same.symm.trans found
      · rw [produced]
        split
        · next same => cases same.symm.trans found
        · rfl
    | ok token =>
      cases token with
      | none =>
        unfold next at found
        split at found
        · simp at found
        · simp [unfinished] at found
        · simp at found
      | some token =>
        refine .inr ⟨token, rest, rfl, ?_, produced_of_next found, ?_⟩
        · rw [toList_of_next found]
        · obtain ⟨other, readable, source, finished⟩ | ⟨isEnd, rfl⟩ := next_eq_some found
          · exact .inl ⟨other, readable, source, finished.trans unfinished⟩
          · exact .inr ⟨isEnd, toList_exhausted lexer⟩

/-- The tokens before an error, and then the end, are a stream. -/
theorem isStream_produced (unfinished : lexer.finished = false)
    (failed : lexer.toList = .error stop) :
    IsStream lexer.source (lexer.produced ++ [Token.endOf lexer.source]) := by
  induction size : lexer.remaining using Nat.strongRecOn generalizing lexer with
  | ind bound ih =>
    subst size
    obtain ⟨stop, -, -, none⟩ | ⟨token, rest, asked, all, some, step⟩ := next_cases unfinished
    · rw [none]
      exact ⟨.last rfl, List.forall_mem_singleton.2 (readable_endOf lexer.source)⟩
    · obtain ⟨other, readable, source, unfinished⟩ | ⟨-, ended⟩ := step
      · have later : rest.toList = .error stop := by
          rw [all] at failed
          obtain found | ⟨tokens, -, impossible⟩ := bind_eq_error_iff.1 failed
          · exact found
          · cases impossible
        have stream := ih _ (TokenFeed.remaining_lt asked) unfinished later rfl
        rw [source] at stream
        rw [some]
        exact ⟨.cons other stream.ends, List.forall_mem_cons.2 ⟨readable, stream.readable⟩⟩
      · rw [all, ended] at failed
        cases failed

/-- A walk that meets no error, and all its tokens. -/
def againstList (source : Text) : Comparison Lexer (List Token) :=
  .ofEq source (fun _ => True)
    (fun lexer tokens => lexer.finished = false ∧ lexer.toList = .ok tokens) (fun _ => False) <| by
      rintro lexer tokens ⟨unfinished, all⟩
      obtain ⟨stop, -, failed, -⟩ | ⟨token, rest, asked, listed, -, step⟩ := next_cases unfinished
      · cases failed.symm.trans all
      · rw [listed] at all
        obtain ⟨others, later, equal⟩ := bind_eq_ok_iff.1 all
        cases equal
        refine .inr ⟨token, rest, others, asked, rfl, trivial, fun other => ?_⟩
        obtain ⟨-, -, -, unfinished⟩ | ⟨isEnd, -⟩ := step
        · exact ⟨unfinished, later⟩
        · exact absurd (congrArg Token.kind isEnd) other

/-- A walk that meets an error, and the tokens before it with any others in place of what the walk
does not reach. No end token is among those it hands out. -/
def againstOthers (source : Text) (stop : Stop) (others : List Token) :
    Comparison Lexer (List Token) :=
  .ofEq source (fun token => token.kind ≠ .eof)
    (fun lexer tokens => lexer.finished = false ∧ lexer.toList = .error stop ∧
      tokens = lexer.produced ++ others) (· = stop) <| by
      rintro lexer tokens ⟨unfinished, failed, rfl⟩
      obtain ⟨found, asked, failing, -⟩ | ⟨token, rest, asked, listed, some, step⟩ :=
        next_cases unfinished
      · cases failing.symm.trans failed
        exact .inl ⟨stop, asked, rfl⟩
      · rw [listed] at failed
        obtain later | ⟨tokens, -, impossible⟩ := bind_eq_error_iff.1 failed
        · obtain ⟨other, -, -, unfinished⟩ | ⟨-, ended⟩ := step
          · rw [some]
            exact .inr ⟨token, rest, rest.produced ++ others, asked, rfl, other,
              fun _ => ⟨unfinished, later, rfl⟩⟩
          · cases ended.symm.trans later
        · cases impossible

end Lexer

variable {source : Text}

/-- Streams are refused for their grammar only. -/
theorem IsStream.grammatical_of_error {tokens : List Token} {stop : Stop}
    (stream : IsStream source tokens) (failed : parseTokens source tokens = .error stop) :
    ∃ diagnostic, stop = .refused diagnostic ∧ diagnostic.phase = .grammatical := by
  have predicted := predicts_program source 0 tokens stream
  rw [parseTokens_eq stream.ends.ne_nil] at failed
  generalize untilEnd (Parser.decl source) (on 0 tokens) = result at predicted failed
  cases predicted with
  | reads => cases failed
  | refuses split report =>
    obtain ⟨_, _, _, rfl, -⟩ := report
    cases failed
    exact ⟨_, rfl, rfl⟩
  | tooDeep =>
    cases failed
    exact ⟨_, rfl, rfl⟩

/-- If all tokens can be read, the parser gives the same answer on them as on demand. -/
theorem parse_eq_parseTokens {tokens : List Token} (lexed : tokenize source = .ok tokens) :
    parse source = parseTokens source tokens := by
  have same : SameAnswer _ _ _ (parse source) (parseTokens source tokens) :=
    (Lexer.againstList source).program ⟨rfl, lexed⟩
  exact same.eq (fun _ _ equal => equal.1) fun _ _ ends => ends

/-- If the lexer meets an error, no program is read on demand: the parser runs into the error, or
stops before it, and then on any other tokens behind those it has read as well. -/
theorem exists_parse_eq_error {stop : Stop} (failed : tokenize source = .error stop) :
    ∃ found, parse source = .error found ∧
      (found = stop ∨ ∀ others,
        parseTokens source ((Lexer.ofSource source).produced ++ others) = .error found) := by
  have same (others : List Token) : SameAnswer _ _ _ (parse source)
      (parseTokens source ((Lexer.ofSource source).produced ++ others)) :=
    (Lexer.againstOthers source stop others).program ⟨rfl, failed, rfl⟩
  cases parsed : parse source with
  | ok program =>
    have read := same []
    rw [parsed] at read
    generalize parseTokens source _ = other at read
    cases read with
    | answer equal =>
      -- The walk has handed out no end token, and only at one a program is complete.
      obtain ⟨-, last, _, ⟨-, other⟩, isEnd⟩ := equal
      exact absurd isEnd other
  | error found =>
    refine ⟨found, rfl, or_iff_not_imp_left.2 fun unbroken others => ?_⟩
    have read := same others
    rw [parsed] at read
    generalize parseTokens source _ = other at read ⊢
    cases read with
    | stop ends => exact congrArg Except.error ends.symm
    | breaks breaks => exact absurd breaks unbroken

/-- A parser that stops before an error of the lexer does so for the grammar of the tokens. -/
theorem grammatical_of_produced {stop found : Stop} (failed : tokenize source = .error stop)
    (refused : ∀ others,
      parseTokens source ((Lexer.ofSource source).produced ++ others) = .error found) :
    ∃ diagnostic, found = .refused diagnostic ∧ diagnostic.phase = .grammatical := by
  have stream : IsStream source ((Lexer.ofSource source).produced ++ [Token.endOf source]) :=
    Lexer.isStream_produced rfl failed
  exact stream.grammatical_of_error (refused [Token.endOf source])

/-- Reading tokens on demand agrees with reading all of them first. If all can be read, the parser
gives the same answer on them. If the lexer meets an error, the parser that asks for tokens stops
there with the same error, or it has refused the tokens before it for their grammar, and then it
refuses them in the same way whatever follows. -/
theorem parse_agrees (source : Text) :
    (∀ tokens, tokenize source = .ok tokens → parse source = parseTokens source tokens) ∧
    (∀ stop, tokenize source = .error stop →
      parse source = .error stop ∨
        ∃ diagnostic, diagnostic.phase = .grammatical ∧
          parse source = .error (.refused diagnostic) ∧
          ∀ others, parseTokens source ((Lexer.ofSource source).produced ++ others) =
            .error (.refused diagnostic)) := by
  refine ⟨fun tokens lexed => parse_eq_parseTokens lexed, fun stop failed => ?_⟩
  obtain ⟨found, parsed, rfl | refused⟩ := exists_parse_eq_error failed
  · exact .inl parsed
  · obtain ⟨diagnostic, rfl, grammatical⟩ := grammatical_of_produced failed refused
    exact .inr ⟨diagnostic, grammatical, parsed, refused⟩

/-- The source `1 = @`, with an error of grammar in front of a bad character. -/
def twiceWrong : Text := ['1', ' ', '=', ' ', '@']

theorem parse_agrees_twiceWrong :
    ∃ stop found, tokenize twiceWrong = .error stop ∧ parse twiceWrong = .error found ∧
      found ≠ stop ∧
      ∀ others, parseTokens twiceWrong ((Lexer.ofSource twiceWrong).produced ++ others) =
        .error found := by
  have failed : tokenize twiceWrong = .error (.refused (.unrecognizedCharacter '@'
      { line := 1, column := 4, lineText := "1 = @" })) := by decide +kernel
  have parsed : parse twiceWrong = .error (.refused (.unexpectedToken "expected an expression" "="
      { line := 1, column := 2, lineText := "1 = @" })) := by decide +kernel
  obtain stopped | ⟨diagnostic, -, refused, anyway⟩ := (parse_agrees twiceWrong).2 _ failed
  · cases parsed.symm.trans stopped
  · exact ⟨_, _, failed, refused, by cases parsed.symm.trans refused; simp, anyway⟩

end FunMips
