import FunMips.Proofs.Program.Reading
import Mathlib.Computability.Language

/-!
# The grammar

Which kinds of tokens make a program, in this order, with expressions nested as deeply as one
likes (`Derives`). What a symbol derives is a language, and each symbol's productions are an
equation between languages (`Symbol.language_expr` and its like); what a parser relies on when it
chooses between productions is what the words of a language can start with (`Starts`).
-/

namespace FunMips

namespace Grammar

/-- The symbols that productions define. -/
inductive Symbol
  | program
  | declaration
  /-- Names with commas between them, or nothing. -/
  | params
  /-- Names with commas between them. -/
  | names
  | expr
  | primary
  /-- Expressions with commas between them, or nothing. -/
  | args
  /-- Expressions with commas between them. -/
  | exprs

/-- The symbol derives the word. -/
inductive Derives : Symbol → List Kind → Prop
  | noDeclarations : Derives .program []
  | declarations {first others : List Kind} :
      Derives .declaration first → Derives .program others → Derives .program (first ++ others)
  | function {params body : List Kind} : Derives .params params → Derives .expr body →
      Derives .declaration
        (.defWord :: .ident :: .leftParen :: (params ++ .rightParen :: .equal :: body))
  | statement {word : List Kind} : Derives .expr word → Derives .declaration word
  | noParams : Derives .params []
  | params {names : List Kind} : Derives .names names → Derives .params names
  | lastName : Derives .names [.ident]
  | names {others : List Kind} :
      Derives .names others → Derives .names (.ident :: .comma :: others)
  | lone {word : List Kind} : Derives .primary word → Derives .expr word
  | plus {left right : List Kind} :
      Derives .primary left → Derives .expr right → Derives .expr (left ++ .plus :: right)
  | minus {left right : List Kind} :
      Derives .primary left → Derives .expr right → Derives .expr (left ++ .minus :: right)
  | number : Derives .primary [.number]
  | var : Derives .primary [.ident]
  | call {args : List Kind} :
      Derives .args args → Derives .primary (.ident :: .leftParen :: (args ++ [.rightParen]))
  | conditional {left right whenEqual otherwise : List Kind} :
      Derives .expr left → Derives .expr right → Derives .expr whenEqual →
      Derives .expr otherwise →
      Derives .primary
        (.ifWord :: (left ++ .equal :: (right ++ .thenWord :: (whenEqual ++
          .elseWord :: otherwise))))
  | noArgs : Derives .args []
  | args {exprs : List Kind} : Derives .exprs exprs → Derives .args exprs
  | lastExpr {word : List Kind} : Derives .expr word → Derives .exprs word
  | exprs {first others : List Kind} :
      Derives .expr first → Derives .exprs others → Derives .exprs (first ++ .comma :: others)

/-- The words a symbol derives. -/
def Symbol.language (symbol : Symbol) : Language Kind := {word | Derives symbol word}

theorem mem_language {symbol : Symbol} {word : List Kind} :
    word ∈ symbol.language ↔ Derives symbol word := Iff.rfl

/-- The word of one token. -/
def lit (kind : Kind) : Language Kind := {[kind]}

section Words

variable {kind first : Kind} {word : List Kind} {L M : Language Kind}

@[simp] theorem mem_lit : word ∈ lit kind ↔ word = [kind] := Iff.rfl

theorem mem_lit_mul : word ∈ lit kind * L ↔ ∃ rest ∈ L, kind :: rest = word := by
  rw [Language.mem_mul]
  constructor
  · rintro ⟨_, rfl, rest, member, rfl⟩
    exact ⟨rest, member, rfl⟩
  · rintro ⟨rest, member, rfl⟩
    exact ⟨[kind], rfl, rest, member, rfl⟩

@[simp] theorem cons_mem_lit_mul : first :: word ∈ lit kind * L ↔ first = kind ∧ word ∈ L := by
  rw [mem_lit_mul]
  constructor
  · rintro ⟨rest, member, equal⟩
    cases equal
    exact ⟨rfl, member⟩
  · rintro ⟨rfl, member⟩
    exact ⟨word, member, rfl⟩

@[simp] theorem exists_mem_lit : ∃ word, word ∈ lit kind := ⟨[kind], rfl⟩

@[simp] theorem exists_mem_mul :
    (∃ word, word ∈ L * M) ↔ (∃ word, word ∈ L) ∧ ∃ word, word ∈ M := by
  constructor
  · rintro ⟨_, first, inFirst, second, inSecond, -⟩
    exact ⟨⟨first, inFirst⟩, ⟨second, inSecond⟩⟩
  · rintro ⟨⟨first, inFirst⟩, ⟨second, inSecond⟩⟩
    exact ⟨first ++ second, Language.append_mem_mul inFirst inSecond⟩

@[simp] theorem exists_mem_one_add : ∃ word, word ∈ 1 + L := ⟨[], .inl rfl⟩

@[simp] theorem Symbol.exists_mem_language (symbol : Symbol) : ∃ word, word ∈ symbol.language := by
  cases symbol with
  | program => exact ⟨[], .noDeclarations⟩
  | declaration => exact ⟨[.number], .statement (.lone .number)⟩
  | params => exact ⟨[], .noParams⟩
  | names => exact ⟨[.ident], .lastName⟩
  | expr => exact ⟨[.number], .lone .number⟩
  | primary => exact ⟨[.number], .number⟩
  | args => exact ⟨[], .noArgs⟩
  | exprs => exact ⟨[.number], .lastExpr (.lone .number)⟩

end Words

/-! ## Productions as equations -/

namespace Symbol

open Language (append_mem_mul)

/-- The operators. -/
def operator : Language Kind := lit .plus + lit .minus

theorem cons_mem_operator_mul {kind : Kind} {word : List Kind} {L : Language Kind} :
    kind :: word ∈ operator * L ↔ (kind = .plus ∨ kind = .minus) ∧ word ∈ L := by
  rw [operator, add_mul, Language.mem_add, cons_mem_lit_mul, cons_mem_lit_mul, or_and_right]

/-- An operator and an expression after it, or nothing. -/
def tail : Language Kind := 1 + operator * expr.language

/-- What follows the `def` of a function. -/
def functionRest : Language Kind :=
  lit .ident * (lit .leftParen * (params.language * (lit .rightParen * (lit .equal *
    expr.language))))

/-- What follows the `if` of a conditional. -/
def conditionalRest : Language Kind :=
  expr.language * (lit .equal * (expr.language * (lit .thenWord * (expr.language *
    (lit .elseWord * expr.language)))))

/-- What follows the opening parenthesis of a call. -/
def callRest : Language Kind := args.language * lit .rightParen

theorem language_program : program.language = 1 + declaration.language * program.language := by
  ext word
  constructor
  · intro derived
    cases derived with
    | noDeclarations => exact .inl rfl
    | declarations first others => exact .inr (append_mem_mul first others)
  · rintro (rfl | ⟨first, here, others, later, rfl⟩)
    · exact .noDeclarations
    · exact .declarations here later

theorem language_declaration :
    declaration.language = lit .defWord * functionRest + expr.language := by
  ext word
  constructor
  · intro derived
    cases derived with
    | function params body =>
      refine .inl (cons_mem_lit_mul.2 ⟨rfl, cons_mem_lit_mul.2 ⟨rfl, cons_mem_lit_mul.2 ⟨rfl, ?_⟩⟩⟩)
      refine append_mem_mul params (cons_mem_lit_mul.2 ⟨rfl, ?_⟩)
      exact cons_mem_lit_mul.2 ⟨rfl, body⟩
    | statement expr => exact .inr expr
  · rintro (⟨_, rfl, _, ⟨_, rfl, _, ⟨_, rfl, _, ⟨params, inParams, _, ⟨_, rfl, _, ⟨_, rfl, body,
      inBody, rfl⟩, rfl⟩, rfl⟩, rfl⟩, rfl⟩, rfl⟩ | expr)
    · exact .function inParams inBody
    · exact .statement expr

theorem language_params : params.language = 1 + names.language := by
  ext word
  constructor
  · intro derived
    cases derived with
    | noParams => exact .inl rfl
    | params names => exact .inr names
  · rintro (rfl | names)
    · exact .noParams
    · exact .params names

theorem language_names : names.language = lit .ident * (1 + lit .comma * names.language) := by
  ext word
  constructor
  · intro derived
    cases derived with
    | lastName => exact cons_mem_lit_mul.2 ⟨rfl, .inl rfl⟩
    | names others =>
      exact cons_mem_lit_mul.2 ⟨rfl, .inr (cons_mem_lit_mul.2 ⟨rfl, others⟩)⟩
  · intro split
    obtain ⟨_, (rfl | ⟨_, rfl, others, derived, rfl⟩), rfl⟩ := mem_lit_mul.1 split
    · exact .lastName
    · exact .names derived

theorem language_expr : expr.language = primary.language * tail := by
  ext word
  constructor
  · intro derived
    cases derived with
    | lone primary => exact ⟨word, primary, [], .inl rfl, List.append_nil word⟩
    | plus left right =>
      exact append_mem_mul left (.inr ⟨[.plus], .inl rfl, _, right, rfl⟩)
    | minus left right =>
      exact append_mem_mul left (.inr ⟨[.minus], .inr rfl, _, right, rfl⟩)
  · rintro ⟨left, primary, _, (rfl | ⟨_, (rfl | rfl), right, derived, rfl⟩), rfl⟩
    · show left ++ [] ∈ expr.language
      rw [List.append_nil]
      exact .lone primary
    · exact .plus primary derived
    · exact .minus primary derived

theorem language_primary :
    primary.language = lit .number + (lit .ident + (lit .ident * (lit .leftParen * callRest) +
      lit .ifWord * conditionalRest)) := by
  ext word
  constructor
  · intro derived
    cases derived with
    | number => exact .inl rfl
    | var => exact .inr (.inl rfl)
    | call args =>
      refine .inr (.inr (.inl (cons_mem_lit_mul.2 ⟨rfl, cons_mem_lit_mul.2 ⟨rfl, ?_⟩⟩)))
      exact append_mem_mul args rfl
    | conditional left right whenEqual otherwise =>
      refine .inr (.inr (.inr (cons_mem_lit_mul.2 ⟨rfl, append_mem_mul left ?_⟩)))
      refine cons_mem_lit_mul.2 ⟨rfl, append_mem_mul right ?_⟩
      refine cons_mem_lit_mul.2 ⟨rfl, append_mem_mul whenEqual ?_⟩
      exact cons_mem_lit_mul.2 ⟨rfl, otherwise⟩
  · rintro (rfl | rfl | ⟨_, rfl, _, ⟨_, rfl, _, ⟨args, derived, _, rfl, rfl⟩, rfl⟩, rfl⟩ |
      ⟨_, rfl, _, ⟨left, inLeft, _, ⟨_, rfl, _, ⟨right, inRight, _, ⟨_, rfl, _, ⟨whenEqual, inEqual,
        _, ⟨_, rfl, otherwise, inOther, rfl⟩, rfl⟩, rfl⟩, rfl⟩, rfl⟩, rfl⟩, rfl⟩)
    · exact .number
    · exact .var
    · exact .call derived
    · exact .conditional inLeft inRight inEqual inOther

theorem language_args : args.language = 1 + exprs.language := by
  ext word
  constructor
  · intro derived
    cases derived with
    | noArgs => exact .inl rfl
    | args exprs => exact .inr exprs
  · rintro (rfl | exprs)
    · exact .noArgs
    · exact .args exprs

theorem language_exprs :
    exprs.language = expr.language * (1 + lit .comma * exprs.language) := by
  ext word
  constructor
  · intro derived
    cases derived with
    | lastExpr expr => exact ⟨word, expr, [], .inl rfl, List.append_nil word⟩
    | exprs first others =>
      exact append_mem_mul first (.inr (cons_mem_lit_mul.2 ⟨rfl, others⟩))
  · rintro ⟨first, here, _, (rfl | ⟨_, rfl, others, later, rfl⟩), rfl⟩
    · show first ++ [] ∈ exprs.language
      rw [List.append_nil]
      exact .lastExpr here
    · exact .exprs here later

/-- An operator and an expression after an expression go on with it. -/
theorem append_tail {word rest : List Kind} (derived : Derives .expr word)
    (inTail : rest ∈ tail) : Derives .expr (word ++ rest) := by
  generalize isExpr : expr = symbol at derived
  induction derived with
  | lone derived =>
    rw [← mem_language, language_expr]
    exact append_mem_mul derived inTail
  | plus left right _ ih =>
    rw [List.append_assoc, List.cons_append]
    exact .plus left (ih rfl)
  | minus left right _ ih =>
    rw [List.append_assoc, List.cons_append]
    exact .minus left (ih rfl)
  | _ => cases isExpr

theorem expr_mul_tail : expr.language * tail = expr.language := by
  ext word
  constructor
  · rintro ⟨first, derived, rest, inTail, rfl⟩
    exact append_tail derived inTail
  · intro derived
    exact ⟨word, derived, [], .inl rfl, List.append_nil word⟩

end Symbol

/-! ## First tokens -/

/-- No word is empty, and each has one of the kinds first. -/
def Starts (kinds : Kind → Prop) (L : Language Kind) : Prop :=
  ∀ word ∈ L, ∃ kind rest, word = kind :: rest ∧ kinds kind

namespace Starts

variable {kinds others : Kind → Prop} {kind : Kind} {rest : List Kind} {L M : Language Kind}

theorem head (starts : Starts kinds L) (member : kind :: rest ∈ L) : kinds kind := by
  obtain ⟨first, following, equal, starts⟩ := starts _ member
  cases equal
  exact starts

theorem mono (starts : Starts kinds L) (imp : ∀ kind, kinds kind → others kind) :
    Starts others L := by
  intro word member
  obtain ⟨kind, rest, equal, starts⟩ := starts word member
  exact ⟨kind, rest, equal, imp kind starts⟩

theorem lit (holds : kinds kind) : Starts kinds (lit kind) := by
  rintro _ rfl
  exact ⟨kind, [], rfl, holds⟩

theorem mul (starts : Starts kinds L) : Starts kinds (L * M) := by
  rintro _ ⟨first, inFirst, second, -, rfl⟩
  obtain ⟨kind, rest, rfl, holds⟩ := starts first inFirst
  exact ⟨kind, rest ++ second, rfl, holds⟩

theorem add (first : Starts kinds L) (second : Starts kinds M) : Starts kinds (L + M) := by
  rintro word (member | member)
  · exact first word member
  · exact second word member

/-- What may be left out starts like itself or like what follows. -/
theorem one_add_mul (first : Starts kinds L) (second : Starts kinds M) :
    Starts kinds ((1 + L) * M) := by
  rw [add_mul, one_mul]
  exact second.add first.mul

end Starts

theorem starts_primary : Starts Expr.StartsWith Symbol.primary.language := by
  rw [Symbol.language_primary]
  exact .add (.lit (.inl rfl)) (.add (.lit (.inr (.inl rfl)))
    (.add (Starts.lit (.inr (.inl rfl))).mul (Starts.lit (.inr (.inr rfl))).mul))

theorem starts_expr : Starts Expr.StartsWith Symbol.expr.language := by
  rw [Symbol.language_expr]
  exact starts_primary.mul

theorem starts_exprs : Starts Expr.StartsWith Symbol.exprs.language := by
  rw [Symbol.language_exprs]
  exact starts_expr.mul

theorem starts_names : Starts (· = .ident) Symbol.names.language := by
  have first : Starts (· = .ident) (lit .ident) := .lit rfl
  rw [Symbol.language_names]
  exact first.mul

theorem starts_declaration :
    Starts (fun kind => kind = .defWord ∨ Expr.StartsWith kind) Symbol.declaration.language := by
  rw [Symbol.language_declaration]
  exact .add (Starts.lit (.inl rfl)).mul (starts_expr.mono fun _ => .inr)

end Grammar

end FunMips
