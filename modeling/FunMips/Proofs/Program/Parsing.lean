import FunMips.Proofs.Program.Reading

/-!
# What is read was written

The other direction: a program that a parser gives is written by the tokens it moved over, it is
canonical, and no expression in it has more levels than may be open at once (`Sound`). Both
directions together say which lists of tokens are programs (`parseTokens_eq_ok_iff`).
-/

namespace FunMips

open Cursor

/-- What a parser gives is meant by what it moved over, in front of what is left. -/
def Sound {α : Type} (source : Text) (parser : Parse (List Token) α)
    (meaning : α → List Terminal → List Token → Prop) : Prop :=
  ∀ depth tokens a after, Terminated tokens → parser (on depth tokens) = .ok (a, after) →
    ∃ taken rest, tokens = taken ++ rest ∧ after = on depth rest ∧ Terminated rest ∧
      meaning a (taken.map (Token.word source)) rest

/-- What a sound parser gives to the parser after it. -/
theorem Sound.bind_eq_ok {α β : Type} {source : Text} {parser : Parse (List Token) α}
    {meaning : α → List Terminal → List Token → Prop} {next : α → Parse (List Token) β}
    {depth : Nat} {tokens : List Token} {result : β × Cursor (List Token)}
    (sound : Sound source parser meaning) (ends : Terminated tokens)
    (found : (parser >>= next) (on depth tokens) = .ok result) :
    ∃ a taken rest, tokens = taken ++ rest ∧ Terminated rest ∧
      meaning a (taken.map (Token.word source)) rest ∧ next a (on depth rest) = .ok result := by
  obtain ⟨a, middle, read, found⟩ := Cursor.bind_eq_ok.1 found
  obtain ⟨taken, rest, rfl, rfl, later, meant⟩ := sound depth tokens a middle ends read
  exact ⟨a, taken, rest, rfl, later, meant, found⟩

section Lists

variable {α : Type} {source : Text} {item : Parse (List Token) α} {spell : α → List Terminal}
variable {good : α → Prop}

/-- One round of reading items: the first of them, and after a comma the others. -/
theorem commaSeparated_cases {depth : Nat} {tokens : List Token} {items : List α}
    {after : Cursor (List Token)}
    (each : Sound source item fun a terminals _ => good a ∧ terminals = spell a)
    (ends : Terminated tokens)
    (found : commaSeparated item (on depth tokens) = .ok (items, after)) :
    ∃ a taken rest, tokens = taken ++ rest ∧ Terminated rest ∧ good a ∧
      taken.map (Token.word source) = spell a ∧
      ((items = [a] ∧ after = on depth rest) ∨
        ∃ comma others more, rest = comma :: others ∧ comma.kind = .comma ∧ Terminated others ∧
          items = a :: more ∧ commaSeparated item (on depth others) = .ok (more, after)) := by
  rw [commaSeparated_eq] at found
  obtain ⟨⟨a, between⟩, here, found⟩ := bind_eq_ok_iff.1 found
  obtain ⟨taken, rest, rfl, rfl, endsRest, holds, spelled⟩ := each _ _ _ _ ends here
  refine ⟨a, taken, rest, rfl, endsRest, holds, spelled, ?_⟩
  obtain ⟨⟨more, behind⟩, looked, found⟩ := bind_eq_ok_iff.1 found
  rcases accept_eq_ok endsRest (by decide) looked with
    ⟨rfl, comma, others, rfl, isComma, rfl, endsOthers⟩ | ⟨rfl, -, rfl⟩
  · rw [if_pos rfl] at found
    split at found
    · obtain ⟨⟨rest, last⟩, later, found⟩ := bind_eq_ok_iff.1 found
      cases found
      exact .inr ⟨comma, others, rest, rfl, isComma, endsOthers, rfl, later⟩
    · cases found
  · cases found
    exact .inl ⟨rfl, rfl⟩

/-- Items that are meant by what was read are meant together, with the commas between them. -/
theorem sound_commaSeparated
    (each : Sound source item fun a terminals _ => good a ∧ terminals = spell a) :
    Sound source (commaSeparated item) fun items terminals _ =>
      items ≠ [] ∧ (∀ a ∈ items, good a) ∧ terminals = separated spell items := by
  intro depth tokens items after ends found
  induction items generalizing tokens with
  | nil =>
    rcases commaSeparated_cases each ends found with
      ⟨a, taken, rest, -, -, -, -, ⟨equal, -⟩ | ⟨comma, others, more, -, -, -, equal, -⟩⟩
    · cases equal
    · cases equal
  | cons first items ih =>
    rcases commaSeparated_cases each ends found with
      ⟨a, taken, rest, rfl, endsRest, holds, spelled, last | more⟩
    · obtain ⟨equal, rfl⟩ := last
      cases equal
      exact ⟨taken, rest, rfl, rfl, endsRest, by simp, by simpa using holds, spelled⟩
    · obtain ⟨comma, others, more, rfl, isComma, endsOthers, equal, later⟩ := more
      cases equal
      obtain ⟨takenLater, rest, rfl, rfl, endsRest, some, allHold, spelledLater⟩ :=
        ih others endsOthers later
      refine ⟨taken ++ comma :: takenLater, rest, by simp, rfl, endsRest, by simp,
        List.forall_mem_cons.2 ⟨holds, allHold⟩, ?_⟩
      obtain ⟨second, items, rfl⟩ := List.exists_cons_of_ne_nil some
      rw [List.map_append, List.map_cons, spelled, spelledLater,
        Token.word_of_mark isComma (by decide) (by decide)]
      rfl

end Lists

/-! ## Expressions -/

/-- The terminals mean the expression, which has at most that many levels, and no operator goes on
with it. -/
structure Meant (levels : Nat) (e : Expr) (terminals : List Terminal) (rest : List Token) :
    Prop where
  canonical : e.isCanonical
  nesting : e.nesting ≤ levels
  spelled : terminals = e.spelling
  noOp : Parser.binOp? (on 0 rest).current.kind = none

/-- The terminals mean the expression, which can stand in front of an operator if one follows. -/
structure MeantFirst (levels : Nat) (e : Expr) (terminals : List Terminal) (rest : List Token) :
    Prop where
  canonical : e.isCanonical
  nesting : e.nesting ≤ levels
  spelled : terminals = e.spelling
  operand : e.isOperand ∨ Parser.binOp? (on 0 rest).current.kind = none

namespace Parser

section Sound

variable {source : Text} {sub : Parse (List Token) Expr} {levels : Nat}

theorem sound_conditional (onSub : Sound source sub (Meant levels)) :
    Sound source (conditional source sub) (MeantFirst (levels + 1)) := by
  intro depth tokens e after ends found
  unfold conditional at found
  obtain ⟨ifToken, tokens, rfl, isIf, ends, found⟩ := mark_bind_eq_ok ends (by decide) found
  obtain ⟨left, lefts, tokens, rfl, ends, onLeft, found⟩ := onSub.bind_eq_ok ends found
  obtain ⟨equalToken, tokens, rfl, isEqual, ends, found⟩ := mark_bind_eq_ok ends (by decide) found
  obtain ⟨right, rights, tokens, rfl, ends, onRight, found⟩ := onSub.bind_eq_ok ends found
  obtain ⟨thenToken, tokens, rfl, isThen, ends, found⟩ := mark_bind_eq_ok ends (by decide) found
  obtain ⟨whenEqual, equals, tokens, rfl, ends, onEqual, found⟩ := onSub.bind_eq_ok ends found
  obtain ⟨elseToken, tokens, rfl, isElse, ends, found⟩ := mark_bind_eq_ok ends (by decide) found
  obtain ⟨otherwise, others, rest, rfl, ends, onOther, found⟩ := onSub.bind_eq_ok ends found
  cases found
  refine ⟨ifToken :: lefts ++ equalToken :: rights ++ thenToken :: equals ++ elseToken :: others,
    rest, by simp, rfl, ends, ?_, ?_, ?_, .inr onOther.noOp⟩
  · simp only [Expr.isCanonical, onLeft.canonical, onRight.canonical, onEqual.canonical,
      onOther.canonical, Bool.and_self]
  · have := onLeft.nesting
    have := onRight.nesting
    have := onEqual.nesting
    have := onOther.nesting
    rw [Expr.nesting]
    omega
  · simp only [List.map_append, List.map_cons, onLeft.spelled, onRight.spelled, onEqual.spelled,
      onOther.spelled, isIf, isEqual, isThen, isElse]
    rfl

theorem sound_args (onSub : Sound source sub (Meant levels)) :
    Sound source (args sub) fun args terminals _ =>
      Expr.areCanonical args ∧ Expr.argsNesting args ≤ levels ∧
        terminals = Expr.argsSpelling args := by
  intro depth tokens args after ends found
  rw [args_eq] at found
  split at found
  · cases found
    exact ⟨[], tokens, rfl, rfl, ends, rfl, Nat.zero_le _, rfl⟩
  · have each : Sound source sub fun e terminals _ =>
        (e.isCanonical ∧ e.nesting ≤ levels) ∧ terminals = e.spelling := by
      intro depth tokens e after ends found
      obtain ⟨taken, rest, equal, stands, endsRest, meant⟩ := onSub depth tokens e after ends found
      exact ⟨taken, rest, equal, stands, endsRest, ⟨meant.canonical, meant.nesting⟩, meant.spelled⟩
    obtain ⟨taken, rest, equal, stands, endsRest, -, good, spelled⟩ :=
      sound_commaSeparated each depth tokens args after ends found
    refine ⟨taken, rest, equal, stands, endsRest, ?_, ?_, ?_⟩
    · exact Expr.areCanonical_iff.2 fun arg member => (good arg member).1
    · exact Expr.argsNesting_le_iff.2 fun arg member => (good arg member).2
    · rw [spelled, Expr.argsSpelling_eq]

theorem sound_call (onSub : Sound source sub (Meant levels)) :
    Sound source (call source sub) (MeantFirst (levels + 1)) := by
  intro depth tokens e after ends found
  unfold call at found
  obtain ⟨name, nameToken, tokens, rfl, isName, ends, found⟩ := expectName_bind_eq_ok ends found
  obtain ⟨leftParen, tokens, rfl, isLeft, ends, found⟩ := mark_bind_eq_ok ends (by decide) found
  obtain ⟨args, inner, tokens, rfl, ends, ⟨canonical, nesting, spelled⟩, found⟩ :=
    (sound_args onSub).bind_eq_ok ends found
  obtain ⟨rightParen, rest, rfl, isRight, ends, found⟩ := mark_bind_eq_ok ends (by decide) found
  cases found
  refine ⟨nameToken :: leftParen :: inner ++ [rightParen], rest, by simp, rfl, ends, canonical,
    ?_, ?_, .inl rfl⟩
  · rw [Expr.nesting]
    omega
  · simp only [List.map_append, List.map_cons, List.map_nil, isName, spelled, isLeft, isRight]
    rfl

theorem sound_primary (onSub : Sound source sub (Meant levels)) :
    Sound source (primary source sub) (MeantFirst (levels + 1)) := by
  intro depth tokens e after ends found
  obtain ⟨first, tokens, rfl⟩ := List.exists_cons_of_ne_nil ends.ne_nil
  cases isKind : first.kind with
  | number =>
    rw [primary_of_number isKind] at found
    obtain ⟨token, _, read, found⟩ := bind_eq_ok.1 found
    obtain ⟨rest, equal, isNumber, rfl, ends⟩ := expect_eq_ok ends (by decide) read
    cases equal
    cases found
    refine ⟨[first], tokens, rfl, rfl, ends, rfl, Nat.le_add_left _ _, ?_, .inl rfl⟩
    rw [List.map_singleton, Token.word_of_number isNumber]
    rfl
  | ident =>
    obtain ⟨next, others, rfl⟩ :=
      List.exists_cons_of_ne_nil (ends.tail (by simp [isKind])).ne_nil
    rw [primary_of_name isKind] at found
    split at found
    · exact sound_call onSub _ _ _ _ ends found
    · obtain ⟨name, token, rest, equal, isName, ends, found⟩ := expectName_bind_eq_ok ends found
      cases equal
      cases found
      refine ⟨[first], _, rfl, rfl, ends, rfl, Nat.le_add_left _ _, ?_, .inl rfl⟩
      rw [List.map_singleton, isName]
      rfl
  | ifWord =>
    rw [primary_of_if isKind] at found
    exact sound_conditional onSub _ _ _ _ ends found
  | _ =>
    unfold primary at found
    rw [bind_of_ok (currentKind_on isKind)] at found
    exact absurd found unexpected_ne_ok

theorem binOp?_eq_some {kind : Kind} {op : BinOp} (found : binOp? kind = some op) :
    kind = op.kind := by
  unfold binOp? at found
  split at found <;> cases found <;> rfl

theorem sound_chain (onSub : Sound source sub (Meant levels)) :
    Sound source (chain source sub) (Meant (levels + 1)) := by
  intro depth tokens e after ends found
  unfold chain at found
  obtain ⟨left, lefts, rest, rfl, ends, onLeft, found⟩ :=
    (sound_primary onSub).bind_eq_ok ends found
  obtain ⟨kind, _, looked, found⟩ := bind_eq_ok.1 found
  cases looked
  cases chosen : binOp? (on 0 rest).current.kind with
  | none =>
    rw [show binOp? (on depth rest).current.kind = none from chosen] at found
    cases found
    exact ⟨lefts, rest, rfl, rfl, ends, onLeft.canonical, onLeft.nesting, onLeft.spelled, chosen⟩
  | some op =>
    rw [show binOp? (on depth rest).current.kind = some op from chosen] at found
    obtain ⟨opToken, tokens, rfl⟩ := List.exists_cons_of_ne_nil ends.ne_nil
    have isOp : opToken.kind = op.kind := binOp?_eq_some chosen
    have endsTokens := ends.tail (by rw [isOp]; cases op <;> decide)
    dsimp only at found
    rw [bind_of_ok (advance_on endsTokens.ne_nil)] at found
    obtain ⟨right, rights, rest, rfl, ends, onRight, found⟩ := onSub.bind_eq_ok endsTokens found
    cases found
    have operand : left.isOperand := by
      rcases onLeft.operand with operand | noOp
      · exact operand
      · rw [chosen] at noOp
        cases noOp
    refine ⟨lefts ++ opToken :: rights, rest, by simp, rfl, ends, ?_, ?_, ?_, onRight.noOp⟩
    · simp only [Expr.isCanonical, operand, onLeft.canonical, onRight.canonical, Bool.and_self]
    · have := onLeft.nesting
      have := onRight.nesting
      rw [Expr.nesting]
      omega
    · have isMark : opToken.word source = .mark op.kind :=
        Token.word_of_mark isOp (by cases op <;> decide) (by cases op <;> decide)
      rw [List.map_append, List.map_cons, onLeft.spelled, onRight.spelled, isMark]
      rfl

theorem tooDeep_ne_ok {cursor : Cursor (List Token)} {result : Expr × Cursor (List Token)} :
    tooDeep source cursor ≠ .ok result := by
  intro found
  obtain ⟨location, -, found⟩ := bind_eq_ok_iff.1 found
  cases found

/-- The level that is opened is closed where the parser has ended. -/
theorem sound_nested (onSub : Sound source sub (Meant levels)) :
    Sound source (nested source sub) (Meant levels) := by
  intro depth tokens e after ends found
  rw [nested_ofText] at found
  obtain ⟨⟨e, inside⟩, read, found⟩ := bind_eq_ok_iff.1 found
  obtain ⟨taken, rest, rfl, rfl, ends, meant⟩ := onSub (depth + 1) tokens e inside ends read
  cases found
  exact ⟨taken, rest, rfl, rfl, ends, meant⟩

/-- An expression that is read has at most as many levels as may be open. -/
theorem sound_expr (source : Text) (levels : Nat) :
    Sound source (expr source levels) (Meant levels) := by
  induction levels with
  | zero =>
    intro depth tokens e after _ found
    exact absurd found tooDeep_ne_ok
  | succ levels ih =>
    intro depth tokens e after ends found
    rw [expr_succ] at found
    split at found
    · exact sound_nested (sound_chain ih) depth tokens e after ends found
    · exact absurd found tooDeep_ne_ok

/-! ## Declarations -/

theorem sound_params (source : Text) :
    Sound source (params source) fun names terminals _ => terminals = namesSpelling names := by
  intro depth tokens names after ends found
  rw [params_eq] at found
  split at found
  · have each : Sound source (expectName source "expected a parameter name")
        fun name terminals _ => True ∧ terminals = [.name name] := by
      intro depth tokens name after ends found
      obtain ⟨token, rest, equal, isName, stands, endsRest⟩ := expectName_eq_ok ends found
      exact ⟨[token], rest, equal, stands, endsRest, trivial, by rw [List.map_singleton, isName]⟩
    obtain ⟨taken, rest, equal, stands, endsRest, -, -, spelled⟩ :=
      sound_commaSeparated each depth tokens names after ends found
    exact ⟨taken, rest, equal, stands, endsRest, spelled.trans (namesSpelling_eq names).symm⟩
  · cases found
    exact ⟨[], tokens, rfl, rfl, ends, rfl⟩

/-- The terminals mean the declaration. -/
structure MeantDecl (d : Decl) (terminals : List Terminal) : Prop where
  canonical : d.expr.isCanonical
  nesting : d.expr.nesting ≤ maxNesting
  spelled : terminals = d.spelling

theorem sound_function (source : Text) :
    Sound source (function source) fun f terminals _ =>
      MeantDecl (.function f) (.mark .defWord :: terminals) := by
  intro depth tokens f after ends found
  unfold function at found
  obtain ⟨name, nameToken, tokens, rfl, isName, ends, found⟩ := expectName_bind_eq_ok ends found
  obtain ⟨leftParen, tokens, rfl, isLeft, ends, found⟩ := mark_bind_eq_ok ends (by decide) found
  obtain ⟨names, inner, tokens, rfl, ends, spelled, found⟩ :=
    (sound_params source).bind_eq_ok ends found
  obtain ⟨rightParen, tokens, rfl, isRight, ends, found⟩ := mark_bind_eq_ok ends (by decide) found
  obtain ⟨equalToken, tokens, rfl, isEqual, ends, found⟩ := mark_bind_eq_ok ends (by decide) found
  obtain ⟨body, bodies, rest, rfl, ends, onBody, found⟩ :=
    (sound_expr source maxNesting).bind_eq_ok ends found
  cases found
  refine ⟨nameToken :: leftParen :: inner ++ rightParen :: equalToken :: bodies, rest, by simp,
    rfl, ends, onBody.canonical, onBody.nesting, ?_⟩
  simp only [List.map_append, List.map_cons, isName, spelled, onBody.spelled, isLeft, isRight,
    isEqual]
  rfl

theorem sound_decl (source : Text) :
    Sound source (decl source) fun d terminals _ => MeantDecl d terminals := by
  intro depth tokens d after ends found
  obtain ⟨first, tokens, rfl⟩ := List.exists_cons_of_ne_nil ends.ne_nil
  by_cases isDef : first.kind = .defWord
  · have endsTokens := ends.tail (by simp [isDef])
    rw [decl_of_def isDef endsTokens.ne_nil] at found
    obtain ⟨f, taken, rest, rfl, ends, meant, found⟩ :=
      (sound_function source).bind_eq_ok endsTokens found
    cases found
    refine ⟨first :: taken, rest, rfl, rfl, ends, ?_⟩
    rw [List.map_cons, Token.word_of_mark isDef (by decide) (by decide)]
    exact meant
  · rw [decl_of_other (by exact isDef)] at found
    obtain ⟨e, taken, rest, equal, ends, meant, found⟩ :=
      (sound_expr source maxNesting).bind_eq_ok ends found
    cases found
    exact ⟨taken, rest, equal, rfl, ends, meant.canonical, meant.nesting, meant.spelled⟩

/-- One round of reading declarations: there are none at the end, and else one and the others. -/
theorem untilEnd_cases {depth : Nat} {tokens : List Token} {decls : List Decl}
    {after : Cursor (List Token)} (ends : Terminated tokens)
    (found : untilEnd (decl source) (on depth tokens) = .ok (decls, after)) :
    (decls = [] ∧ ∃ last, tokens = [last] ∧ last.kind = .eof) ∨
      ∃ d taken rest more, tokens = taken ++ rest ∧ Terminated rest ∧
        MeantDecl d (taken.map (Token.word source)) ∧ decls = d :: more ∧
        untilEnd (decl source) (on depth rest) = .ok (more, after) := by
  rw [untilEnd_eq] at found
  split at found
  · next isEnd =>
    cases found
    obtain ⟨last, others, rfl⟩ := List.exists_cons_of_ne_nil ends.ne_nil
    obtain rfl := ends.eq_nil isEnd
    exact .inl ⟨rfl, last, rfl, isEnd⟩
  · obtain ⟨⟨d, between⟩, read, found⟩ := bind_eq_ok_iff.1 found
    obtain ⟨taken, rest, rfl, rfl, endsRest, meant⟩ := sound_decl source _ _ _ _ ends read
    split at found
    · obtain ⟨⟨more, last⟩, later, found⟩ := bind_eq_ok_iff.1 found
      cases found
      exact .inr ⟨d, taken, rest, more, rfl, endsRest, meant, rfl, later⟩
    · cases found

/-- Declarations that are read up to the end are written by all the tokens but the last. -/
theorem sound_untilEnd {depth : Nat} {tokens : List Token} {decls : List Decl}
    {after : Cursor (List Token)} (ends : Terminated tokens)
    (found : untilEnd (decl source) (on depth tokens) = .ok (decls, after)) :
    (∀ d ∈ decls, d.expr.isCanonical ∧ d.expr.nesting ≤ maxNesting) ∧
      tokens.map (Token.word source) = decls.flatMap Decl.spelling ++ [.mark .eof] := by
  induction decls generalizing tokens with
  | nil =>
    rcases untilEnd_cases ends found with
      ⟨-, last, rfl, isEnd⟩ | ⟨d, taken, rest, more, -, -, -, equal, -⟩
    · refine ⟨by simp, ?_⟩
      rw [List.map_singleton, Token.word_of_mark isEnd (by decide) (by decide)]
      rfl
    · cases equal
  | cons first decls ih =>
    rcases untilEnd_cases ends found with
      ⟨equal, -⟩ | ⟨d, taken, rest, more, rfl, endsRest, meant, equal, later⟩
    · cases equal
    · cases equal
      obtain ⟨good, spelled⟩ := ih endsRest later
      refine ⟨List.forall_mem_cons.2 ⟨⟨meant.canonical, meant.nesting⟩, good⟩, ?_⟩
      rw [List.map_append, meant.spelled, spelled, List.flatMap_cons, List.append_assoc]

end Sound

end Parser

/-! ## Programs -/

section Program

variable {source : Text} {tokens : List Token} {program : Program}

theorem parseTokens_eq (more : tokens ≠ []) :
    parseTokens source tokens =
      untilEnd (Parser.decl source) (on 0 tokens) >>= fun found => .ok { decls := found.1 } := by
  have unfolded : parseTokens source tokens = ofFeed source tokens >>= fun cursor =>
      untilEnd (Parser.decl source) cursor >>= fun found => .ok { decls := found.1 } := rfl
  rw [unfolded, ofFeed_eq more]
  rfl

/-- A program that was written, and then the end, is read. -/
theorem reads_program {written : List Token} {last : Token} (canonical : program.isCanonical)
    (writes : Writes source written program.spelling) (isEnd : last.kind = .eof) :
    Reads 0 (untilEnd (Parser.decl source) (on 0 (written ++ [last])))
      (∀ d ∈ program.decls, d.expr.nesting ≤ maxNesting) program.decls [last] :=
  Parser.reads_untilEnd (List.all_eq_true.1 canonical) writes isEnd

/-- Tokens that write a canonical program of few enough levels, and then the end, are read as that
program. -/
theorem parseTokens_of_writes {written : List Token} {last : Token}
    (canonical : program.isCanonical) (shallow : ∀ d ∈ program.decls, d.expr.nesting ≤ maxNesting)
    (writes : Writes source written program.spelling) (isEnd : last.kind = .eof) :
    parseTokens source (written ++ [last]) = .ok program := by
  rw [parseTokens_eq (by simp), (reads_program canonical writes isEnd).accepts shallow]
  rfl

/-- Tokens of a source that are read as a program write it, and it is canonical and of few enough
levels. -/
theorem writes_of_parseTokens {written : List Token} {last : Token}
    (lexed : tokenize source = .ok (written ++ [last]))
    (parsed : parseTokens source (written ++ [last]) = .ok program) :
    program.isCanonical ∧ (∀ d ∈ program.decls, d.expr.nesting ≤ maxNesting) ∧
      Writes source written program.spelling := by
  obtain ⟨ends, readable⟩ := tokenize_eq_ok lexed
  rw [parseTokens_eq ends.ne_nil] at parsed
  obtain ⟨⟨decls, after⟩, read, equal⟩ := bind_eq_ok_iff.1 parsed
  cases equal
  obtain ⟨good, spelled⟩ := Parser.sound_untilEnd ends read
  rw [List.map_append] at spelled
  exact ⟨List.all_eq_true.2 fun d member => (good d member).1, fun d member => (good d member).2,
    (List.append_inj' spelled rfl).1,
    fun token member => readable token (List.mem_append_left _ member)⟩

/-- Tokens of a source are read as a program exactly if they write it, up to the end token, and it
is canonical and has at most `maxNesting` levels anywhere. A canonical program with more levels is
refused as nested too deeply. -/
theorem parseTokens_eq_ok_iff (lexed : tokenize source = .ok tokens) (program : Program) :
    (parseTokens source tokens = .ok program ↔
      program.isCanonical ∧ (∀ d ∈ program.decls, d.expr.nesting ≤ maxNesting) ∧
        tokens.mapM (Token.terminal source) = .ok (program.spelling ++ [.mark .eof])) ∧
    (program.isCanonical → (∃ d ∈ program.decls, maxNesting < d.expr.nesting) →
      tokens.mapM (Token.terminal source) = .ok (program.spelling ++ [.mark .eof]) →
        ∃ location, parseTokens source tokens =
          .error (.refused (.nestingTooDeep maxNesting location))) := by
  obtain ⟨ends, readable⟩ := tokenize_eq_ok lexed
  rw [mapM_terminal readable, parseTokens_eq ends.ne_nil]
  have written (spelled : tokens.map (Token.word source) = program.spelling ++ [.mark .eof])
      (canonical : program.isCanonical) :
      ∃ last, Reads 0 (untilEnd (Parser.decl source) (on 0 tokens))
        (∀ d ∈ program.decls, d.expr.nesting ≤ maxNesting) program.decls [last] := by
    obtain ⟨front, back, rfl, writes, writesLast⟩ := Writes.split ⟨spelled, readable⟩
    obtain ⟨last, rfl, isEnd, -⟩ := writesLast.singleton
    exact ⟨last, reads_program canonical writes (Token.kind_of_word isEnd)⟩
  refine ⟨⟨fun found => ?_, ?_⟩, ?_⟩
  · obtain ⟨⟨decls, after⟩, read, found⟩ := bind_eq_ok_iff.1 found
    cases found
    obtain ⟨good, spelled⟩ := Parser.sound_untilEnd ends read
    refine ⟨List.all_eq_true.2 fun d member => (good d member).1,
      fun d member => (good d member).2, ?_⟩
    rw [spelled]
    rfl
  · rintro ⟨canonical, shallow, spelled⟩
    obtain ⟨last, reads⟩ := written (Except.ok.inj spelled) canonical
    rw [reads.accepts shallow]
    rfl
  · rintro canonical ⟨d, member, deep⟩ spelled
    obtain ⟨last, reads⟩ := written (Except.ok.inj spelled) canonical
    obtain ⟨location, refused⟩ :=
      reads.refuses fun shallow => absurd (shallow d member) (Nat.not_le.2 deep)
    exact ⟨location, by rw [refused]; rfl⟩

/-- The source `f(1) - 2`. -/
def difference : Text := ['f', '(', '1', ')', ' ', '-', ' ', '2']

/-- Its tokens. -/
def differenceTokens : List Token :=
  [{ kind := .ident, start := 0, length := 1 }, { kind := .leftParen, start := 1, length := 1 },
    { kind := .number, start := 2, length := 1, value := some 1 },
    { kind := .rightParen, start := 3, length := 1 }, { kind := .minus, start := 5, length := 1 },
    { kind := .number, start := 7, length := 1, value := some 2 },
    { kind := .eof, start := 8, length := 0 }]

theorem parseTokens_difference :
    tokenize difference = .ok differenceTokens ∧
      parseTokens difference differenceTokens =
        .ok { decls := [.statement (.binary .minus (.call "f" [.number 1]) (.number 2))] } := by
  have lexed : tokenize difference = .ok differenceTokens := by with_unfolding_all rfl
  exact ⟨lexed, (parseTokens_eq_ok_iff lexed _).1.2 ⟨rfl, by decide, rfl⟩⟩

end Program

end FunMips
