import FunMips.Proofs.Program.Agreement
import FunMips.Proofs.Token.Metering

/-!
# Lists of tokens on which the parser ends

The parser takes any list of tokens, also one that has nothing to do with its source. It reads
nothing behind the first end token. Where there is none, the last token stays when the list has run
dry, and may then be read more than once: one parenthesis closes several calls, and a conditional
opens inside itself until the nesting is too deep. The parser ends for all that, with a bound on
the number of tokens it asks for, unless that last token is an expression on its own
(`parseTokens_ends`).
-/

namespace FunMips

open Cursor

/-- The program that tokens spell, for a parser that may ask for a token only so many times. -/
def parseWithin (source : Text) (requests : Nat) (tokens : List Token) : Except Stop Program :=
  Parser.program source (⟨tokens, requests⟩ : Metered)

variable {source : Text}

/-! ## The grammar, part by part -/

section Grammar

variable {sub : Parse (List Token) Expr} {twin : Parse Metered Expr}

theorem settling_args (onSub : Settling Moves sub twin) :
    Settling Anywhere (Parser.args sub) (Parser.args twin) := by
  refine .onKind fun cursor ready => ?_
  by_cases isParen : cursor.current.kind = .rightParen
  · rw [if_pos isParen, if_pos isParen]
    exact .stay ready trivial
  · rw [if_neg isParen, if_neg isParen]
    exact settling_commaSeparated onSub cursor ready

/-- A call, after its name. -/
theorem settling_callRest (onSub : Settling Moves sub twin) (name : String) :
    Settling Anywhere
      (do
        let _ ← expect source .leftParen "expected '(' to start the argument list"
        let args ← Parser.args sub
        let _ ← expect source .rightParen "expected ')' after the arguments"
        return Expr.call name args)
      (do
        let _ ← expect source .leftParen "expected '(' to start the argument list"
        let args ← Parser.args twin
        let _ ← expect source .rightParen "expected ')' after the arguments"
        return Expr.call name args) := by
  refine settling_expect.followedBy fun _ => ?_
  refine (settling_args onSub).followedBy fun args => ?_
  exact settling_expect.followedBy fun _ => .pure _

theorem settling_conditional (onSub : Settling Moves sub twin) :
    Settling Moves (Parser.conditional source sub) (Parser.conditional source twin) := by
  -- the `if` may stay, but no expression is read off it then
  refine settling_expect.passes fun _ => onSub.moves fun left => ?_
  refine settling_expect.followedBy fun _ => onSub.followedBy fun right => ?_
  refine settling_expect.followedBy fun _ => onSub.followedBy fun whenEqual => ?_
  exact settling_expect.followedBy fun _ => onSub.followedBy fun otherwise => .pure _

theorem settling_primary (onSub : Settling Moves sub twin) :
    Settling Moves (Parser.primary source sub) (Parser.primary source twin) := by
  refine .onKind fun cursor ready => ?_
  cases isKind : cursor.current.kind with
  | number =>
    exact (settling_expect_operand (.inl rfl)).moves (fun token => .pure _) cursor ready
  | ident =>
    refine settles_peekKind ready fun kind ahead remaining => ?_
    -- the name is an operand, so it is enough to pass it
    have moves {after : Cursor (List Token)} (passes : Passes ahead after) :
        Moves cursor after := by
      rw [Passes, remaining] at passes
      exact Passes.moves passes (.inr isKind)
    by_cases isParen : kind = .leftParen
    · rw [if_pos isParen, if_pos isParen]
      refine (settles_expectName ahead).bind fun name after requests ready reached named => ?_
      exact (settling_callRest onSub name after ready).imp fun _ _ rest _ =>
        (moves named.2).later rest
    · rw [if_neg isParen, if_neg isParen]
      refine (settles_expectName ahead).bind fun name after requests ready reached named => ?_
      exact .stay ready (moves named.2)
  | ifWord => exact settling_conditional onSub cursor ready
  | _ => exact settles_unexpected

theorem settling_chain (onSub : Settling Moves sub twin) :
    Settling Moves (Parser.chain source sub) (Parser.chain source twin) := by
  refine (settling_primary onSub).moves fun operand => .onKind fun cursor ready => ?_
  cases Parser.binOp? cursor.current.kind with
  | none => exact .stay ready trivial
  | some op =>
    refine (settles_advance cursor).bind fun _ after requests ready reached passes => ?_
    exact onSub.followedBy (fun right => .pure _) after ready

theorem settling_tooDeep : Settling Moves (Parser.tooDeep source) (Parser.tooDeep source) := by
  intro cursor ready
  exact .query (fun _ => Stop.proper_of_locate) fun location => .stop 0 trivial fun _ => rfl

/-- The levels that are open do not matter for how far a parser goes. -/
theorem settling_nested (inner : Settling Moves sub twin) :
    Settling Moves (Parser.nested source sub) (Parser.nested source twin) := by
  intro cursor ready
  have opened : Reached cursor { cursor with depth := cursor.depth + 1 } 0 :=
    ⟨List.suffix_rfl, Nat.le_refl _⟩
  simp only [Parser.nested_ofText]
  refine .after opened ((inner { cursor with depth := cursor.depth + 1 } ready).bind
    fun e after requests ready reached moves => ?_) fun _ => rfl
  exact .answer 0 ready ⟨List.suffix_rfl, Nat.le_refl _⟩ moves fun _ => rfl

theorem settling_expr (levels : Nat) :
    Settling Moves (Parser.expr source levels) (Parser.expr source levels) := by
  induction levels with
  | zero => exact settling_tooDeep
  | succ levels ih =>
    intro cursor ready
    by_cases room : cursor.depth < maxNesting
    · have metered (requests : Nat) : (cursor.metered requests).depth < maxNesting := room
      simp only [Parser.expr_succ, if_pos room, if_pos (metered _)]
      exact settling_nested (settling_chain ih) cursor ready
    · have metered (requests : Nat) : ¬(cursor.metered requests).depth < maxNesting := room
      simp only [Parser.expr_succ, if_neg room, if_neg (metered _)]
      exact settling_tooDeep cursor ready

theorem settling_params : Settling Anywhere (Parser.params source) (Parser.params source) := by
  refine .onKind fun cursor ready => ?_
  by_cases isName : cursor.current.kind = .ident
  · rw [if_pos isName, if_pos isName]
    exact settling_commaSeparated settling_expectName cursor ready
  · rw [if_neg isName, if_neg isName]
    exact .stay ready trivial

theorem settling_function : Settling Moves (Parser.function source) (Parser.function source) := by
  refine settling_expectName.moves fun name => ?_
  refine settling_expect.followedBy fun _ => settling_params.followedBy fun params => ?_
  refine settling_expect.followedBy fun _ => settling_expect.followedBy fun _ => ?_
  exact (settling_expr maxNesting).followedBy fun body => .pure _

theorem settling_decl : Settling Moves (Parser.decl source) (Parser.decl source) := by
  intro cursor ready
  refine (settles_accept ready).bind fun isDef after requests ready reached accepted => ?_
  obtain ⟨rfl, -, passes⟩ | ⟨rfl, rfl⟩ := accepted
  · refine (settling_function.moves (fun function => .pure _) after ready).imp ?_
    exact fun _ _ rest moves => passes.before_moves reached.rest moves rest
  · exact (settling_expr maxNesting).moves (fun e => .pure _) after ready

end Grammar

/-! ## Whole lists -/

theorem settles_program {tokens : List Token}
    (anchored : ∀ last ∈ tokens.getLast?, ¬last.kind.IsOperand) :
    (∀ stop, parseTokens source tokens = .error stop → stop.Proper) ∧
      ∃ requests, ∀ spare,
        parseWithin source (spare + requests) tokens = parseTokens source tokens := by
  let first : Cursor (List Token) :=
    ⟨tokens.head?.getD (Token.endOf source), none, tokens.tail, 0⟩
  have held : first.Anchored := by
    cases tokens with
    | nil =>
      rintro last ⟨⟩
      rintro (isNumber | isName)
      · cases isNumber
      · cases isName
    | cons token tokens => exact anchored
  have parsed : parseTokens source tokens =
      untilEnd (Parser.decl source) first >>= fun read => .ok { decls := read.1 } := by
    cases tokens <;> rfl
  have parsedWithin (requests : Nat) : parseWithin source (requests + 1) tokens =
      untilEnd (Parser.decl source) (first.metered requests) >>= fun read =>
        .ok { decls := read.1 } := rfl
  obtain ⟨proper, requests, same⟩ := (settles_untilEnd settling_decl first rfl held).ends Program.mk
  rw [parsed]
  refine ⟨proper, requests + 1, fun spare => ?_⟩
  rw [← Nat.add_assoc, parsedWithin]
  exact same spare

/-- A list, and a metered one that has the same tokens up to an end token and can be asked for
them. -/
def upToEnd (source : Text) : Comparison (List Token) Metered :=
  .ofEq source (fun _ => True)
    (fun tokens metered => ∃ before last rest others, last.kind = .eof ∧
      tokens = before ++ last :: rest ∧ metered.tokens = before ++ last :: others ∧
      before.length < metered.requests)
    (fun _ => False) <| by
      rintro _ ⟨_, requests⟩ ⟨before, last, rest, others, isEnd, rfl, rfl, enough⟩
      obtain ⟨requests, rfl⟩ := Nat.exists_eq_add_one.2 (Nat.zero_lt_of_lt enough)
      cases before with
      | nil => exact .inr ⟨last, _, _, rfl, rfl, trivial, fun other => absurd isEnd other⟩
      | cons token before =>
        refine .inr ⟨token, _, _, rfl, rfl, trivial, fun _ => ?_⟩
        exact ⟨before, last, rest, others, isEnd, rfl, rfl, Nat.lt_of_succ_lt_succ enough⟩

section End

variable {before rest : List Token} {last : Token}

/-- One request for each token up to an end token is enough, and what follows does not matter. -/
theorem parseWithin_upToEnd (isEnd : last.kind = .eof) (others : List Token) (spare : Nat) :
    parseWithin source (spare + (before.length + 1)) (before ++ last :: others) =
      parseTokens source (before ++ last :: rest) := by
  have same : SameAnswer _ _ _ (parseTokens source (before ++ last :: rest))
      (parseWithin source (spare + (before.length + 1)) (before ++ last :: others)) :=
    (upToEnd source).program ⟨before, last, rest, others, isEnd, rfl, rfl, Nat.le_add_left _ _⟩
  exact (same.eq (fun _ _ equal => equal.1) fun _ _ ends => ends).symm

theorem parseTokens_cut (isEnd : last.kind = .eof) :
    parseTokens source (before ++ last :: rest) = parseTokens source (before ++ [last]) :=
  (parseWithin_upToEnd isEnd [] 0).symm.trans (parseWithin_upToEnd isEnd [] 0)

/-- Where the list goes on behind an end token, its last token does not matter. -/
theorem settles_program_of_end (isEnd : last.kind = .eof) :
    (∀ stop, parseTokens source (before ++ last :: rest) = .error stop → stop.Proper) ∧
      ∃ requests, ∀ spare, parseWithin source (spare + requests) (before ++ last :: rest) =
        parseTokens source (before ++ last :: rest) := by
  refine ⟨?_, before.length + 1, parseWithin_upToEnd isEnd rest⟩
  rw [parseTokens_cut isEnd]
  refine (settles_program fun token isLast => ?_).1
  rw [List.getLast?_concat] at isLast
  cases isLast
  rw [Kind.IsOperand, isEnd]
  decide

end End

theorem exists_before_of_findIdx? {tokens : List Token} {k : Nat}
    (first : tokens.findIdx? (·.kind = .eof) = some k) :
    ∃ before last rest, tokens = before ++ last :: rest ∧ before.length = k ∧ last.kind = .eof := by
  obtain ⟨inside, isEnd, -⟩ := List.findIdx?_eq_some_iff_getElem.1 first
  refine ⟨tokens.take k, tokens[k], tokens.drop (k + 1), ?_, ?_, of_decide_eq_true isEnd⟩
  · rw [← List.drop_eq_getElem_cons inside, List.take_append_drop]
  · exact List.length_take_of_le (Nat.le_of_lt inside)

/-- The parser ends on a list of tokens that is empty, or has an end token, or has a last token
that is neither a number nor a name: with a program, with a refusal, or because the text of a token
or a place cannot be cut from the source. It does so after a number of requests for tokens, and more
of them do not change the answer. It asks for no token behind the first end token; what follows
there does not matter, and the list may as well be cut. -/
theorem parseTokens_ends (source : Text) (tokens : List Token)
    (closed : tokens = [] ∨ (∃ token ∈ tokens, token.kind = .eof) ∨
      ∃ last ∈ tokens.getLast?, last.kind ≠ .number ∧ last.kind ≠ .ident) :
    ((∃ program, parseTokens source tokens = .ok program) ∨
      (∃ diagnostic, parseTokens source tokens = .error (.refused diagnostic)) ∨
      parseTokens source tokens = .error .splitCharacter) ∧
    (∃ requests, ∀ spare,
      parseWithin source (spare + requests) tokens = parseTokens source tokens) ∧
    ∀ k, tokens.findIdx? (·.kind = .eof) = some k →
      parseTokens source tokens = parseTokens source (tokens.take (k + 1)) ∧
      ∀ others spare, parseWithin source (spare + (k + 1)) (tokens.take (k + 1) ++ others) =
        parseTokens source tokens := by
  have settles : (∀ stop, parseTokens source tokens = .error stop → stop.Proper) ∧
      ∃ requests, ∀ spare,
        parseWithin source (spare + requests) tokens = parseTokens source tokens := by
    obtain rfl | ⟨token, member, isEnd⟩ | ⟨last, isLast, notNumber, notName⟩ := closed
    · exact settles_program fun last isLast => by cases isLast
    · obtain ⟨before, rest, rfl⟩ := List.append_of_mem member
      exact settles_program_of_end isEnd
    · refine settles_program fun other isOther => ?_
      cases isOther.symm.trans isLast
      exact not_or.2 ⟨notNumber, notName⟩
  obtain ⟨proper, ends⟩ := settles
  refine ⟨?_, ends, fun k first => ?_⟩
  · cases parsed : parseTokens source tokens with
    | ok program => exact .inl ⟨program, rfl⟩
    | error stop =>
      have proper := proper stop parsed
      cases stop with
      | refused diagnostic => exact .inr (.inl ⟨diagnostic, rfl⟩)
      | splitCharacter => exact .inr (.inr rfl)
      | lookaheadFull => exact proper.elim
      | endless => exact proper.elim
  · obtain ⟨before, last, rest, rfl, rfl, isEnd⟩ := exists_before_of_findIdx? first
    have cut : (before ++ last :: rest).take (before.length + 1) = before ++ [last] := by
      simp [List.take_append]
    refine ⟨by rw [cut, parseTokens_cut isEnd], fun others spare => ?_⟩
    rw [cut, List.append_assoc]
    exact parseWithin_upToEnd isEnd others spare

/-- The source `f(g(1)`. -/
def unclosed : Text := ['f', '(', 'g', '(', '1', ')']

/-- The tokens of `f(g(1)`, without an end token. -/
def unclosedTokens : List Token :=
  [⟨.ident, 0, 1, none⟩, ⟨.leftParen, 1, 1, none⟩, ⟨.ident, 2, 1, none⟩, ⟨.leftParen, 3, 1, none⟩,
    ⟨.number, 4, 1, some 1⟩, ⟨.rightParen, 5, 1, none⟩]

-- The one parenthesis closes both calls, and is refused only where a new statement would start.
theorem parseTokens_ends_unclosed :
    (∃ requests, ∀ spare, parseWithin unclosed (spare + requests) unclosedTokens =
      .error (.refused (.unexpectedToken "expected an expression" ")"
        { line := 1, column := 5, lineText := "f(g(1)" }))) ∧
    ∀ others spare, parseWithin unclosed (spare + 2)
        ([⟨.number, 4, 1, some 1⟩, Token.endOf unclosed] ++ others) =
      .ok { decls := [.statement (.number 1)] } := by
  have refused : parseTokens unclosed unclosedTokens =
      .error (.refused (.unexpectedToken "expected an expression" ")"
        { line := 1, column := 5, lineText := "f(g(1)" })) := by decide +kernel
  have read : parseTokens unclosed [⟨.number, 4, 1, some 1⟩, Token.endOf unclosed] =
      .ok { decls := [.statement (.number 1)] } := by decide +kernel
  constructor
  · obtain ⟨-, ends, -⟩ := parseTokens_ends unclosed unclosedTokens
      (.inr (.inr ⟨⟨.rightParen, 5, 1, none⟩, rfl, by decide, by decide⟩))
    rwa [refused] at ends
  · intro others spare
    obtain ⟨-, -, upTo⟩ := parseTokens_ends unclosed
      [⟨.number, 4, 1, some 1⟩, Token.endOf unclosed]
      (.inr (.inl ⟨Token.endOf unclosed, by simp, rfl⟩))
    exact ((upTo 1 rfl).2 others spare).trans read

-- A number that ends a list, with no end token, is read for ever.
example : parseTokens ['1'] [⟨.number, 0, 1, some 1⟩] = .error .endless ∧
    parseWithin ['1'] 3 [⟨.number, 0, 1, some 1⟩] = .error .endless := by
  constructor <;> decide +kernel

end FunMips
