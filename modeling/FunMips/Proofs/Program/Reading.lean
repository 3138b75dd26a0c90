import FunMips.Program.Parser
import FunMips.Proofs.Token.Walk

/-!
# What is written is read

A parser whose tokens write a program, and then end, gives that program, unless an expression in
it has more levels than may be open at once; then it refuses the source for that reason and no
other (`Reads`). One lemma for each part of the grammar says so of the tokens that write the part,
whatever stands after them, as long as it does not go on with the part.
-/

namespace FunMips

open Cursor

/-- A parser moves over what is written if it fits, and refuses it as nested too deeply if not. -/
structure Reads {α : Type} (depth : Nat) (result : Except Stop (α × Cursor (List Token)))
    (fits : Prop) (a : α) (rest : List Token) : Prop where
  accepts : fits → result = .ok (a, on depth rest)
  refuses : ¬ fits →
    ∃ location, result = .error (.refused (.nestingTooDeep maxNesting location))

namespace Reads

variable {α β : Type} {result : Except Stop (α × Cursor (List Token))} {fits others : Prop} {a : α}
variable {b : β} {middle rest : List Token} {depth : Nat}

theorem of_eq (found : result = .ok (a, on depth rest)) : Reads depth result True a rest :=
  ⟨fun _ => found, fun unfit => absurd trivial unfit⟩

theorem congr (reads : Reads depth result fits a rest) (same : fits ↔ others) :
    Reads depth result others a rest :=
  ⟨fun fit => reads.accepts (same.2 fit), fun unfit => reads.refuses (mt same.1 unfit)⟩

/-- What follows is read if what comes first fits; if that does not fit, nothing else matters. -/
theorem bind {next : α × Cursor (List Token) → Except Stop (β × Cursor (List Token))}
    (first : Reads depth result fits a middle)
    (later : fits → Reads depth (next (a, on depth middle)) others b rest) :
    Reads depth (result >>= next) (fits ∧ others) b rest := by
  by_cases fit : fits
  · rw [first.accepts fit]
    exact (later fit).congr ⟨fun other => ⟨fit, other⟩, And.right⟩
  · obtain ⟨location, refused⟩ := first.refuses fit
    rw [refused]
    exact ⟨fun both => absurd both.1 fit, fun _ => ⟨location, rfl⟩⟩

/-- What is made of a part is read if the part is. -/
theorem bind_ok {next : α × Cursor (List Token) → Except Stop (β × Cursor (List Token))}
    (first : Reads depth result fits a middle)
    (later : next (a, on depth middle) = .ok (b, on depth rest)) :
    Reads depth (result >>= next) fits b rest :=
  (first.bind fun _ => .of_eq later).congr (and_iff_left trivial)

/-- The same for parsers that follow each other. -/
theorem andThen {first : Parse (List Token) α} {next : α → Parse (List Token) β}
    {cursor : Cursor (List Token)} (here : Reads depth (first cursor) fits a middle)
    (later : fits → Reads depth (next a (on depth middle)) others b rest) :
    Reads depth ((first >>= next) cursor) (fits ∧ others) b rest := by
  have unfolded : (first >>= next) cursor =
      first cursor >>= fun between => next between.1 between.2 := rfl
  rw [unfolded]
  exact here.bind later

theorem andThen_ok {first : Parse (List Token) α} {next : α → Parse (List Token) β}
    {cursor : Cursor (List Token)} (here : Reads depth (first cursor) fits a middle)
    (later : next a (on depth middle) = .ok (b, on depth rest)) :
    Reads depth ((first >>= next) cursor) fits b rest :=
  (here.andThen fun _ => .of_eq later).congr (and_iff_left trivial)

/-- A step that does not fail leaves only what follows to be read. -/
theorem after {first : Parse (List Token) α} {next : α → Parse (List Token) β}
    {cursor : Cursor (List Token)} (here : first cursor = .ok (a, on depth middle))
    (later : Reads depth (next a (on depth middle)) others b rest) :
    Reads depth ((first >>= next) cursor) others b rest := by
  rw [bind_of_ok here]
  exact later

end Reads

/-- The tokens do not go on with an expression that stands before them. -/
def Stops (rest : List Token) : Prop :=
  ∃ token others, rest = token :: others ∧ Parser.binOp? token.kind = none ∧
    token.kind ≠ .leftParen

theorem Stops.ne_nil {rest : List Token} (stops : Stops rest) : rest ≠ [] := by
  obtain ⟨token, others, rfl, -⟩ := stops
  exact List.cons_ne_nil _ _

theorem Stops.of_kind {token : Token} {others : List Token} {kind : Kind}
    (isKind : token.kind = kind) (notOp : Parser.binOp? kind = none)
    (notParen : kind ≠ .leftParen) : Stops (token :: others) := by
  subst isKind
  exact ⟨token, others, rfl, notOp, notParen⟩

/-! ## Lists -/

section Lists

variable {α : Type} {source : Text} {item : Parse (List Token) α} {spell : α → List Terminal}
variable {fits : α → Prop} {depth : Nat}

theorem commaSeparated_eq (item : Parse (List Token) α) (cursor : Cursor (List Token)) :
    commaSeparated item cursor = item cursor >>= fun first =>
      accept .comma first.2 >>= fun more =>
        if more.1 then
          if more.2.remaining < cursor.remaining then
            commaSeparated item more.2 >>= fun others => .ok (first.1 :: others.1, others.2)
          else .error .endless
        else .ok ([first.1], more.2) := by
  rw [commaSeparated]
  rfl

/-- Items with commas between them are read if each of them is. -/
theorem reads_commaSeparated {items : List α} (some : items ≠ [])
    (each : ∀ a ∈ items, ∀ written rest, Writes source written (spell a) → Stops rest →
      Reads depth (item (on depth (written ++ rest))) (fits a) a rest)
    {written rest : List Token} (writes : Writes source written (separated spell items))
    (stops : Stops rest) (noComma : (on depth rest).current.kind ≠ .comma) :
    Reads depth (commaSeparated item (on depth (written ++ rest))) (∀ a ∈ items, fits a) items
      rest := by
  induction items generalizing written with
  | nil => exact absurd rfl some
  | cons a items ih =>
    obtain ⟨here, later⟩ := List.forall_mem_cons.1 each
    rw [commaSeparated_eq, List.forall_mem_cons]
    cases items with
    | nil =>
      apply (here written rest writes stops).bind
      intro _
      rw [accept_on_other noComma]
      exact (Reads.of_eq rfl).congr (by simp)
    | cons b items =>
      obtain ⟨first, others, rfl, writesFirst, writesOthers⟩ := writes.split
      obtain ⟨comma, second, rfl, isComma, -, writesSecond⟩ := writesOthers.uncons
      have isComma : comma.kind = .comma := Token.kind_of_word isComma
      have more : second ++ rest ≠ [] := List.append_ne_nil_of_right_ne_nil _ stops.ne_nil
      have shorter : (on depth (second ++ rest)).remaining <
          (on depth (first ++ comma :: second ++ rest)).remaining := by
        have := List.length_pos_iff.2 more
        simp only [remaining_on, List.length_append, List.length_cons] at this ⊢
        omega
      rw [List.append_assoc, List.cons_append] at shorter ⊢
      apply (here first _ writesFirst (.of_kind isComma rfl (by decide))).bind
      intro _
      rw [accept_on isComma more, ok_bind, if_pos rfl, if_pos shorter]
      exact (ih (List.cons_ne_nil b items) later writesSecond).bind_ok rfl

end Lists

/-! ## What a primary starts with -/

namespace Parser

variable {source : Text} {sub : Parse (List Token) Expr} {token next : Token}
variable {tokens others : List Token} {depth : Nat}

theorem primary_of_number (isNumber : token.kind = .number) :
    primary source sub (on depth (token :: tokens)) =
      (do
        let token ← expect source .number "expected a number"
        return .number (token.value.getD 0) : Parse (List Token) Expr)
        (on depth (token :: tokens)) := by
  unfold primary
  rw [bind_of_ok (currentKind_on isNumber)]

theorem args_eq (tokens : List Token) :
    args sub (on depth tokens) =
      if (on depth tokens).current.kind = .rightParen then .ok ([], on depth tokens)
      else commaSeparated sub (on depth tokens) := by
  have unfolded : args sub (on depth tokens) =
      (if (on depth tokens).current.kind = .rightParen then
        (return [] : Parse (List Token) (List Expr))
        else commaSeparated sub) (on depth tokens) := rfl
  rw [unfolded]
  split
  · rfl
  · rfl

theorem primary_of_if (isIf : token.kind = .ifWord) :
    primary source sub (on depth (token :: tokens)) =
      conditional source sub (on depth (token :: tokens)) := by
  unfold primary
  rw [bind_of_ok (currentKind_on isIf)]

/-- A name is read the same whether or not the token after it was looked at. -/
theorem expectName_bind_lookahead {α : Type} {message : String}
    (rest : String → Parse (List Token) α) :
    (expectName source message >>= rest)
        { current := token, lookahead := some next, feed := others, depth } =
      (expectName source message >>= rest) (on depth (token :: next :: others)) := by
  have unfolded (cursor : Cursor (List Token)) : (expectName source message >>= rest) cursor =
      expectName source message cursor >>= fun found => rest found.1 found.2 := rfl
  rw [unfolded, unfolded, expectName_lookahead]

theorem primary_of_name (isName : token.kind = .ident) :
    primary source sub (on depth (token :: next :: others)) =
      if next.kind = .leftParen then call source sub (on depth (token :: next :: others))
      else
        (do return .var (← expectName source "expected an identifier") :
          Parse (List Token) Expr) (on depth (token :: next :: others)) := by
  have peeked : peekKind (on depth (token :: next :: others)) =
      .ok (next.kind, { current := token, lookahead := some next, feed := others, depth }) := rfl
  unfold primary
  rw [bind_of_ok (currentKind_on isName)]
  dsimp only
  rw [bind_of_ok peeked]
  split
  · exact expectName_bind_lookahead _
  · exact expectName_bind_lookahead _

end Parser

/-! ## Expressions -/

namespace Expr

/-- The kinds of tokens that an expression can start with. -/
def StartsWith (kind : Kind) : Prop := kind = .number ∨ kind = .ident ∨ kind = .ifWord

theorem StartsWith.ne {kind other : Kind} (starts : StartsWith kind)
    (different : ¬ StartsWith other) : kind ≠ other := by
  rintro rfl
  exact different starts

theorem exists_spelling_eq_cons (e : Expr) :
    ∃ terminal terminals, e.spelling = terminal :: terminals ∧ StartsWith terminal.kind := by
  cases e with
  | number value => exact ⟨_, _, rfl, .inl rfl⟩
  | var name => exact ⟨_, _, rfl, .inr (.inl rfl)⟩
  | binary op left right =>
    obtain ⟨terminal, terminals, equal, starts⟩ := exists_spelling_eq_cons left
    refine ⟨terminal, terminals ++ .mark op.kind :: right.spelling, ?_, starts⟩
    rw [spelling, equal]
    rfl
  | conditional left right whenEqual otherwise => exact ⟨_, _, rfl, .inr (.inr rfl)⟩
  | call name args => exact ⟨_, _, rfl, .inr (.inl rfl)⟩

theorem exists_argsSpelling_eq_append (arg : Expr) (args : List Expr) :
    ∃ terminals, argsSpelling (arg :: args) = arg.spelling ++ terminals := by
  cases args with
  | nil => exact ⟨[], (List.append_nil _).symm⟩
  | cons next args => exact ⟨_, rfl⟩

/-- The first token of what is written. -/
theorem startsWith_current {source : Text} {e : Expr} {written : List Token}
    {terminals : List Terminal} (writes : Writes source written (e.spelling ++ terminals))
    (depth : Nat) (rest : List Token) : StartsWith (on depth (written ++ rest)).current.kind := by
  obtain ⟨terminal, others, equal, starts⟩ := exists_spelling_eq_cons e
  rw [equal] at writes
  obtain ⟨token, tokens, rfl, spoken, -⟩ := writes.uncons
  rw [← Token.kind_of_word spoken] at starts
  exact starts

theorem nesting_pos (e : Expr) : 0 < e.nesting := by
  cases e <;> simp only [nesting] <;> omega

theorem argsNesting_le_iff {args : List Expr} {levels : Nat} :
    argsNesting args ≤ levels ↔ ∀ arg ∈ args, arg.nesting ≤ levels := by
  induction args with
  | nil => simp [argsNesting]
  | cons arg args ih => rw [argsNesting, Nat.max_le, ih, List.forall_mem_cons]

theorem areCanonical_iff {args : List Expr} :
    areCanonical args = true ↔ ∀ arg ∈ args, arg.isCanonical := by
  induction args with
  | nil => simp [areCanonical]
  | cons arg args ih => rw [areCanonical, Bool.and_eq_true, ih, List.forall_mem_cons]

end Expr

/-- With so many levels open, a parser of expressions reads what is written if it has at most that
many levels more. -/
def ReadsExprs (source : Text) (depth levels : Nat) (parser : Parse (List Token) Expr) : Prop :=
  ∀ (e : Expr) (written rest : List Token), e.isCanonical → Writes source written e.spelling →
    Stops rest → Reads depth (parser (on depth (written ++ rest))) (e.nesting ≤ levels) e rest

namespace Parser

section Primary

variable {source : Text} {sub : Parse (List Token) Expr} {depth levels : Nat}
variable {written rest : List Token}

theorem reads_number {value : Int32} (writes : Writes source written (Expr.number value).spelling)
    (more : rest ≠ []) :
    Reads depth (primary source sub (on depth (written ++ rest))) True (.number value) rest := by
  obtain ⟨token, rfl, isNumber, -⟩ := writes.singleton
  have kind : token.kind = .number := Token.kind_of_word isNumber
  have value : token.value.getD 0 = value := by
    rw [Token.word_of_number kind] at isNumber
    exact Terminal.number.inj isNumber
  rw [List.singleton_append, primary_of_number kind]
  refine Reads.after (expect_on kind more) (Reads.of_eq ?_)
  rw [value]
  rfl

theorem reads_var {name : String} {next : Token} {others : List Token}
    (writes : Writes source written (Expr.var name).spelling) (noParen : next.kind ≠ .leftParen) :
    Reads depth (primary source sub (on depth (written ++ next :: others))) True (.var name)
      (next :: others) := by
  obtain ⟨token, rfl, isName, readable⟩ := writes.singleton
  have kind : token.kind = .ident := Token.kind_of_word isName
  rw [List.singleton_append, primary_of_name kind, if_neg noParen]
  exact Reads.after (expectName_on kind (Token.text_of_word readable isName)
    (List.cons_ne_nil next others)) (Reads.of_eq rfl)

/-- Arguments are read if none has too many levels. -/
theorem reads_args {args : List Expr} (onSub : ReadsExprs source depth levels sub)
    (canonical : Expr.areCanonical args) (writes : Writes source written (Expr.argsSpelling args))
    {paren : Token} (isParen : paren.kind = .rightParen) :
    Reads depth (Parser.args sub (on depth (written ++ paren :: rest)))
      (Expr.argsNesting args ≤ levels) args (paren :: rest) := by
  rw [args_eq]
  cases args with
  | nil =>
    obtain rfl := writes.eq_nil
    rw [List.nil_append, if_pos (by exact isParen)]
    exact (Reads.of_eq rfl).congr (by simp [Expr.argsNesting])
  | cons arg args =>
    have stops : Stops (paren :: rest) := .of_kind isParen rfl (by decide)
    obtain ⟨terminals, equal⟩ := Expr.exists_argsSpelling_eq_append arg args
    have starts := Expr.startsWith_current (equal ▸ writes) depth (paren :: rest)
    rw [if_neg (starts.ne (by simp [Expr.StartsWith]))]
    rw [Expr.argsSpelling_eq] at writes
    refine Reads.congr (reads_commaSeparated (List.cons_ne_nil arg args) ?_ writes stops
      (by simp [on, isParen])) Expr.argsNesting_le_iff.symm
    intro other member written rest writes stops
    exact onSub other written rest (Expr.areCanonical_iff.1 canonical other member) writes stops

theorem reads_call {name : String} {args : List Expr} (onSub : ReadsExprs source depth levels sub)
    (canonical : (Expr.call name args).isCanonical)
    (writes : Writes source written (Expr.call name args).spelling) (more : rest ≠ []) :
    Reads depth (primary source sub (on depth (written ++ rest)))
      ((Expr.call name args).nesting ≤ levels + 1) (.call name args) rest := by
  obtain ⟨front, last, rfl, writesFront, writesLast⟩ := writes.split
  obtain ⟨nameToken, others, rfl, isName, readable, writesFront⟩ := writesFront.uncons
  obtain ⟨leftParen, inner, rfl, isLeft, -, writesArgs⟩ := writesFront.uncons
  obtain ⟨rightParen, rfl, isRight, -⟩ := writesLast.singleton
  have nameKind : nameToken.kind = .ident := Token.kind_of_word isName
  have leftKind : leftParen.kind = .leftParen := Token.kind_of_word isLeft
  have rightKind : rightParen.kind = .rightParen := Token.kind_of_word isRight
  have tokens : nameToken :: leftParen :: inner ++ [rightParen] ++ rest =
      nameToken :: leftParen :: (inner ++ rightParen :: rest) := by simp
  rw [tokens, primary_of_name nameKind, if_pos leftKind]
  unfold call
  apply Reads.after (expectName_on nameKind (Token.text_of_word readable isName) (by simp))
  apply Reads.after (expect_on leftKind (by simp))
  rw [Expr.nesting, Nat.add_comm, Nat.add_le_add_iff_right]
  exact (reads_args onSub canonical writesArgs rightKind).andThen_ok
    (bind_of_ok (expect_on rightKind more))

theorem reads_conditional {left right whenEqual otherwise : Expr}
    (onSub : ReadsExprs source depth levels sub)
    (canonical : (Expr.conditional left right whenEqual otherwise).isCanonical)
    (writes : Writes source written (Expr.conditional left right whenEqual otherwise).spelling)
    (stops : Stops rest) :
    Reads depth (primary source sub (on depth (written ++ rest)))
      ((Expr.conditional left right whenEqual otherwise).nesting ≤ levels + 1)
      (.conditional left right whenEqual otherwise) rest := by
  simp only [Expr.isCanonical, Bool.and_eq_true] at canonical
  obtain ⟨⟨⟨inLeft, inRight⟩, inEqual⟩, inOther⟩ := canonical
  obtain ⟨front, elsePart, rfl, writes, writesElse⟩ := writes.split
  obtain ⟨front, thenPart, rfl, writes, writesThen⟩ := writes.split
  obtain ⟨ifPart, equalPart, rfl, writesIf, writesEqual⟩ := writes.split
  obtain ⟨ifToken, lefts, rfl, isIf, -, writesLeft⟩ := writesIf.uncons
  obtain ⟨equalToken, rights, rfl, isEqual, -, writesRight⟩ := writesEqual.uncons
  obtain ⟨thenToken, equals, rfl, isThen, -, writesEqual⟩ := writesThen.uncons
  obtain ⟨elseToken, others, rfl, isElse, -, writesOther⟩ := writesElse.uncons
  have isIf : ifToken.kind = .ifWord := Token.kind_of_word isIf
  have isEqual : equalToken.kind = .equal := Token.kind_of_word isEqual
  have isThen : thenToken.kind = .thenWord := Token.kind_of_word isThen
  have isElse : elseToken.kind = .elseWord := Token.kind_of_word isElse
  have tokens : ifToken :: lefts ++ equalToken :: rights ++ thenToken :: equals ++
      elseToken :: others ++ rest = ifToken :: (lefts ++ equalToken :: (rights ++
        thenToken :: (equals ++ elseToken :: (others ++ rest)))) := by simp
  have more : others ++ rest ≠ [] := List.append_ne_nil_of_right_ne_nil _ stops.ne_nil
  have fits : (left.nesting ≤ levels ∧ right.nesting ≤ levels ∧ whenEqual.nesting ≤ levels ∧
      otherwise.nesting ≤ levels) ↔
      (Expr.conditional left right whenEqual otherwise).nesting ≤ levels + 1 := by
    rw [Expr.nesting]
    omega
  rw [tokens, primary_of_if isIf]
  unfold conditional
  rw [← fits]
  apply Reads.after (expect_on isIf (by simp))
  apply (onSub left _ _ inLeft writesLeft (.of_kind isEqual rfl (by decide))).andThen
  intro _
  apply Reads.after (expect_on isEqual (by simp))
  apply (onSub right _ _ inRight writesRight (.of_kind isThen rfl (by decide))).andThen
  intro _
  apply Reads.after (expect_on isThen (by simp))
  apply (onSub whenEqual _ _ inEqual writesEqual (.of_kind isElse rfl (by decide))).andThen
  intro _
  apply Reads.after (expect_on isElse more)
  exact (onSub otherwise _ _ inOther writesOther stops).andThen_ok rfl

/-- An operand is read, whatever follows but a parenthesis. -/
theorem reads_operand {e : Expr} {next : Token} {others : List Token}
    (onSub : ReadsExprs source depth levels sub) (operand : e.isOperand) (canonical : e.isCanonical)
    (writes : Writes source written e.spelling) (noParen : next.kind ≠ .leftParen) :
    Reads depth (primary source sub (on depth (written ++ next :: others)))
      (e.nesting ≤ levels + 1) e (next :: others) := by
  cases e with
  | number value =>
    have fits : True ↔ (Expr.number value).nesting ≤ levels + 1 := by simp [Expr.nesting]
    exact (reads_number writes (List.cons_ne_nil next others)).congr fits
  | var name =>
    have fits : True ↔ (Expr.var name).nesting ≤ levels + 1 := by simp [Expr.nesting]
    exact (reads_var writes noParen).congr fits
  | binary op left right => cases operand
  | conditional left right whenEqual otherwise => cases operand
  | call name args => exact reads_call onSub canonical writes (List.cons_ne_nil next others)

end Primary

section Chain

variable {source : Text} {sub : Parse (List Token) Expr} {depth levels : Nat}
variable {written rest : List Token}

/-- A chain ends with a primary that no operator follows. -/
theorem reads_chain_last {e : Expr} {fits : Prop}
    (here : Reads depth (primary source sub (on depth (written ++ rest))) fits e rest)
    (stops : Stops rest) :
    Reads depth (chain source sub (on depth (written ++ rest))) fits e rest := by
  obtain ⟨next, others, rfl, noOp, -⟩ := stops
  unfold chain
  apply here.andThen_ok
  rw [bind_of_ok (currentKind_on rfl), noOp]
  rfl

theorem reads_chain_binary {op : BinOp} {left right : Expr}
    (onSub : ReadsExprs source depth levels sub)
    (canonical : (Expr.binary op left right).isCanonical)
    (writes : Writes source written (Expr.binary op left right).spelling) (stops : Stops rest) :
    Reads depth (chain source sub (on depth (written ++ rest)))
      ((Expr.binary op left right).nesting ≤ levels + 1) (.binary op left right) rest := by
  simp only [Expr.isCanonical, Bool.and_eq_true] at canonical
  obtain ⟨⟨operand, inLeft⟩, inRight⟩ := canonical
  obtain ⟨lefts, others, rfl, writesLeft, writesOthers⟩ := writes.split
  obtain ⟨opToken, rights, rfl, isOp, -, writesRight⟩ := writesOthers.uncons
  have isOp : opToken.kind = op.kind := Token.kind_of_word isOp
  have noParen : opToken.kind ≠ .leftParen := by
    rw [isOp]
    cases op <;> decide
  have chosen : binOp? opToken.kind = some op := by
    rw [isOp]
    cases op <;> rfl
  have more : rights ++ rest ≠ [] := List.append_ne_nil_of_right_ne_nil _ stops.ne_nil
  have fits : (left.nesting ≤ levels + 1 ∧ right.nesting ≤ levels) ↔
      (Expr.binary op left right).nesting ≤ levels + 1 := by
    rw [Expr.nesting]
    omega
  rw [List.append_assoc, List.cons_append]
  unfold chain
  rw [← fits]
  apply (reads_operand onSub operand inLeft writesLeft noParen).andThen
  intro _
  apply Reads.after (currentKind_on rfl)
  rw [chosen]
  apply Reads.after (advance_on more)
  exact (onSub right _ _ inRight writesRight stops).andThen_ok rfl

theorem readsExprs_chain (onSub : ReadsExprs source depth levels sub) :
    ReadsExprs source depth (levels + 1) (chain source sub) := by
  intro e written rest canonical writes stops
  by_cases operand : e.isOperand
  · obtain ⟨next, others, rfl, noOp, noParen⟩ := stops
    exact reads_chain_last (reads_operand onSub operand canonical writes noParen)
      ⟨next, others, rfl, noOp, noParen⟩
  · cases e with
    | binary op left right => exact reads_chain_binary onSub canonical writes stops
    | conditional left right whenEqual otherwise =>
      exact reads_chain_last (reads_conditional onSub canonical writes stops) stops
    | _ => exact absurd rfl operand

/-- A level is opened for what is read, and closed behind it. -/
theorem readsExprs_nested (onSub : ReadsExprs source (depth + 1) levels sub) :
    ReadsExprs source depth levels (nested source sub) := by
  intro e written rest canonical writes stops
  rw [nested_ofText]
  obtain ⟨accepts, refuses⟩ := onSub e written rest canonical writes stops
  constructor
  · intro fits
    have opened : sub { on depth (written ++ rest) with depth := depth + 1 } =
        .ok (e, on (depth + 1) rest) := accepts fits
    rw [show (on depth (written ++ rest)).depth = depth from rfl, opened]
    rfl
  · intro deep
    obtain ⟨location, refused⟩ := refuses deep
    have opened : sub { on depth (written ++ rest) with depth := depth + 1 } =
        .error (.refused (.nestingTooDeep maxNesting location)) := refused
    rw [show (on depth (written ++ rest)).depth = depth from rfl, opened]
    exact ⟨location, rfl⟩

/-- Expressions are read at every level, and refused if there are not enough of them. -/
theorem readsExprs_expr (source : Text) (levels : Nat) {depth : Nat}
    (left : depth + levels = maxNesting) : ReadsExprs source depth levels (expr source levels) := by
  induction levels generalizing depth with
  | zero =>
    intro e written rest _ writes _
    obtain ⟨terminal, terminals, equal, -⟩ := e.exists_spelling_eq_cons
    rw [equal] at writes
    obtain ⟨token, others, rfl, -, readable, -⟩ := writes.uncons
    obtain ⟨location, located⟩ := readable.2
    refine ⟨fun fits => absurd e.nesting_pos (Nat.not_lt.2 fits), fun _ => ⟨location, ?_⟩⟩
    have unfolded : expr source 0 (on depth (token :: others ++ rest)) =
        Location.locate source token.start >>= fun location =>
          .error (.refused (.nestingTooDeep maxNesting location)) := rfl
    rw [unfolded, located]
    rfl
  | succ levels ih =>
    intro e written rest canonical writes stops
    have room : (on depth (written ++ rest)).depth < maxNesting := by
      show depth < maxNesting
      omega
    rw [expr_succ, if_pos room]
    exact readsExprs_nested (readsExprs_chain (ih (by omega))) e written rest canonical writes stops

end Chain

section Decl

variable {source : Text} {written rest : List Token} {depth : Nat}

theorem params_eq (tokens : List Token) :
    params source (on depth tokens) =
      if (on depth tokens).current.kind = .ident then
        commaSeparated (expectName source "expected a parameter name") (on depth tokens)
      else .ok ([], on depth tokens) := by
  have unfolded : params source (on depth tokens) =
      (if (on depth tokens).current.kind = .ident then
        commaSeparated (expectName source "expected a parameter name")
        else pure [] : Parse (List Token) (List String)) (on depth tokens) := rfl
  rw [unfolded]
  split
  · rfl
  · rfl

theorem reads_params {names : List String} {paren : Token}
    (writes : Writes source written (namesSpelling names)) (isParen : paren.kind = .rightParen) :
    Reads depth (params source (on depth (written ++ paren :: rest))) True names
      (paren :: rest) := by
  rw [params_eq]
  cases names with
  | nil =>
    obtain rfl := writes.eq_nil
    have noName : (on depth ([] ++ paren :: rest)).current.kind ≠ .ident := by simp [on, isParen]
    rw [if_neg noName]
    exact Reads.of_eq rfl
  | cons name names =>
    have starts : (on depth (written ++ paren :: rest)).current.kind = .ident := by
      obtain ⟨terminals, equal⟩ : ∃ terminals,
          namesSpelling (name :: names) = .name name :: terminals := by
        cases names <;> exact ⟨_, rfl⟩
      rw [equal] at writes
      obtain ⟨token, others, rfl, isName, -⟩ := writes.uncons
      exact Token.kind_of_word isName
    have each : ∀ other ∈ name :: names, ∀ written rest, Writes source written [.name other] →
        Stops rest →
        Reads depth (expectName source "expected a parameter name" (on depth (written ++ rest)))
          True other rest := by
      intro other _ written rest writes stops
      obtain ⟨token, rfl, isName, readable⟩ := writes.singleton
      exact Reads.of_eq (expectName_on (Token.kind_of_word isName)
        (Token.text_of_word readable isName) stops.ne_nil)
    rw [namesSpelling_eq] at writes
    rw [if_pos starts]
    exact Reads.congr (reads_commaSeparated (List.cons_ne_nil name names) each writes
      (.of_kind isParen rfl (by decide)) (by simp [on, isParen])) (by simp)

theorem reads_function {f : Function} (canonical : f.body.isCanonical)
    (writes : Writes source written (.name f.name :: .mark .leftParen :: namesSpelling f.params ++
      .mark .rightParen :: .mark .equal :: f.body.spelling)) (stops : Stops rest) :
    Reads 0 (function source (on 0 (written ++ rest))) (f.body.nesting ≤ maxNesting) f rest := by
  obtain ⟨front, back, rfl, writesFront, writesBack⟩ := writes.split
  obtain ⟨nameToken, others, rfl, isName, readable, writesFront⟩ := writesFront.uncons
  obtain ⟨leftParen, inner, rfl, isLeft, -, writesParams⟩ := writesFront.uncons
  obtain ⟨rightParen, others, rfl, isRight, -, writesBack⟩ := writesBack.uncons
  obtain ⟨equalToken, body, rfl, isEqual, -, writesBody⟩ := writesBack.uncons
  have leftKind : leftParen.kind = .leftParen := Token.kind_of_word isLeft
  have rightKind : rightParen.kind = .rightParen := Token.kind_of_word isRight
  have equalKind : equalToken.kind = .equal := Token.kind_of_word isEqual
  have tokens : nameToken :: leftParen :: inner ++ rightParen :: equalToken :: body ++ rest =
      nameToken :: leftParen :: (inner ++ rightParen :: equalToken :: (body ++ rest)) := by simp
  have more : body ++ rest ≠ [] := List.append_ne_nil_of_right_ne_nil _ stops.ne_nil
  rw [tokens]
  unfold function
  apply Reads.after (expectName_on (Token.kind_of_word isName)
    (Token.text_of_word readable isName) (by simp))
  apply Reads.after (expect_on leftKind (by simp))
  apply Reads.after ((reads_params writesParams rightKind).accepts trivial)
  apply Reads.after (expect_on rightKind (by simp))
  apply Reads.after (expect_on equalKind more)
  have body := readsExprs_expr source maxNesting (Nat.zero_add _)
  exact (body f.body _ _ canonical writesBody stops).andThen_ok rfl

theorem decl_of_def {token : Token} {tokens : List Token} (isDef : token.kind = .defWord)
    (more : tokens ≠ []) :
    decl source (on depth (token :: tokens)) =
      (do return .function (← function source) : Parse (List Token) Decl) (on depth tokens) := by
  unfold decl
  rw [bind_of_ok (accept_on isDef more)]
  rfl

theorem decl_of_other {tokens : List Token} (other : (on depth tokens).current.kind ≠ .defWord) :
    decl source (on depth tokens) =
      (do return .statement (← expr source maxNesting) : Parse (List Token) Decl)
        (on depth tokens) := by
  unfold decl
  rw [bind_of_ok (accept_on_other other)]
  rfl

theorem reads_decl {d : Decl} (canonical : d.expr.isCanonical)
    (writes : Writes source written d.spelling) (stops : Stops rest) :
    Reads 0 (decl source (on 0 (written ++ rest))) (d.expr.nesting ≤ maxNesting) d rest := by
  cases d with
  | function f =>
    rw [Decl.spelling, List.cons_append] at writes
    obtain ⟨defToken, others, rfl, isDef, -, writesFunction⟩ := writes.uncons
    have more : others ++ rest ≠ [] := List.append_ne_nil_of_right_ne_nil _ stops.ne_nil
    rw [List.cons_append, decl_of_def (Token.kind_of_word isDef) more]
    exact (reads_function canonical writesFunction stops).andThen_ok rfl
  | statement e =>
    rw [Decl.spelling, ← List.append_nil e.spelling] at writes
    have starts := Expr.startsWith_current writes 0 rest
    rw [List.append_nil] at writes
    rw [decl_of_other (starts.ne (by simp [Expr.StartsWith]))]
    have whole := readsExprs_expr source maxNesting (Nat.zero_add _)
    exact (whole e _ _ canonical writes stops).andThen_ok rfl

/-- A declaration starts with its keyword or with an expression. -/
theorem exists_declSpelling_eq_cons (d : Decl) :
    ∃ terminal terminals, d.spelling = terminal :: terminals ∧
      (terminal.kind = .defWord ∨ Expr.StartsWith terminal.kind) := by
  cases d with
  | function f => exact ⟨_, _, rfl, .inl rfl⟩
  | statement e =>
    obtain ⟨terminal, terminals, equal, starts⟩ := e.exists_spelling_eq_cons
    exact ⟨terminal, terminals, equal, .inr starts⟩

/-- The declarations that follow, or the end, do not go on with what stands before them. -/
theorem stops_decls {decls : List Decl} {last : Token}
    (writes : Writes source written (decls.flatMap Decl.spelling)) (isEnd : last.kind = .eof) :
    Stops (written ++ [last]) := by
  cases decls with
  | nil =>
    obtain rfl := writes.eq_nil
    exact .of_kind isEnd rfl (by decide)
  | cons d decls =>
    obtain ⟨terminal, terminals, equal, starts⟩ := exists_declSpelling_eq_cons d
    rw [List.flatMap_cons, equal, List.cons_append] at writes
    obtain ⟨token, others, rfl, spoken, -⟩ := writes.uncons
    rw [← Token.kind_of_word spoken] at starts
    rcases starts with isDef | isNumber | isName | isIf
    · exact .of_kind isDef rfl (by decide)
    · exact .of_kind isNumber rfl (by decide)
    · exact .of_kind isName rfl (by decide)
    · exact .of_kind isIf rfl (by decide)

theorem untilEnd_eq {α : Type} (item : Parse (List Token) α) (cursor : Cursor (List Token)) :
    untilEnd item cursor =
      if cursor.current.kind = .eof then .ok ([], cursor)
      else item cursor >>= fun first =>
        if first.2.remaining < cursor.remaining then
          untilEnd item first.2 >>= fun others => .ok (first.1 :: others.1, others.2)
        else .error .endless := by
  rw [untilEnd]
  rfl

/-- Declarations are read up to the end. -/
theorem reads_untilEnd {decls : List Decl} {last : Token}
    (canonical : ∀ d ∈ decls, d.expr.isCanonical)
    (writes : Writes source written (decls.flatMap Decl.spelling)) (isEnd : last.kind = .eof) :
    Reads 0 (untilEnd (decl source) (on 0 (written ++ [last])))
      (∀ d ∈ decls, d.expr.nesting ≤ maxNesting) decls [last] := by
  induction decls generalizing written with
  | nil =>
    obtain rfl := writes.eq_nil
    rw [untilEnd_eq, if_pos (by exact isEnd)]
    exact (Reads.of_eq rfl).congr (by simp)
  | cons d decls ih =>
    obtain ⟨here, later⟩ := List.forall_mem_cons.1 canonical
    obtain ⟨first, others, rfl, writesFirst, writesOthers⟩ := writes.split
    have stops := stops_decls writesOthers isEnd
    obtain ⟨terminal, terminals, equal, starts⟩ := exists_declSpelling_eq_cons d
    obtain ⟨token, tokens, rfl, spoken, -⟩ := (equal ▸ writesFirst : Writes source first _).uncons
    have notEnd : token.kind ≠ .eof := by
      rw [Token.kind_of_word spoken]
      rcases starts with isDef | starts
      · rw [isDef]
        decide
      · exact starts.ne (by simp [Expr.StartsWith])
    have shorter : (on 0 (others ++ [last])).remaining <
        (on 0 (token :: tokens ++ others ++ [last])).remaining := by
      simp only [remaining_on, List.length_append, List.length_cons, List.length_nil]
      omega
    rw [untilEnd_eq, if_neg (by exact notEnd), List.forall_mem_cons, List.append_assoc]
    rw [List.append_assoc] at shorter
    apply (reads_decl here writesFirst stops).bind
    intro _
    rw [if_pos shorter]
    exact (ih later writesOthers).bind_ok rfl

end Decl

end Parser

end FunMips
