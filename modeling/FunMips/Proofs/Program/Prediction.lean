import FunMips.Proofs.Program.Grammar
import FunMips.Proofs.Program.Parsing

/-!
# Refusals point at the first token that fits no program

The parser never goes back: with one token in view, and a second one after a name, it knows which
production it is in. Said of a part of the grammar and of all that may follow it (`Predicted`):
when the part has been read, nothing but what follows can continue the tokens; when a token is
refused, the tokens before it can be completed to such a part, and no completion begins with that
token. So a refused token is the first at which the tokens stop being the start of a program
(`unexpectedToken_is_first`).
-/

namespace FunMips

open Cursor

/-- Tokens of a source, the last of which is its end. -/
structure IsStream (source : Text) (tokens : List Token) : Prop where
  ends : Terminated tokens
  readable : ∀ token ∈ tokens, token.Readable source

namespace IsStream

variable {source : Text} {token : Token} {taken rest tokens : List Token}

theorem tail (stream : IsStream source (token :: rest)) (other : token.kind ≠ .eof) :
    IsStream source rest :=
  ⟨stream.ends.tail other, (List.forall_mem_cons.1 stream.readable).2⟩

/-- What is left of a stream is a stream. -/
theorem suffix (stream : IsStream source (taken ++ token :: rest)) :
    IsStream source (token :: rest) := by
  induction taken with
  | nil => exact stream
  | cons first taken ih =>
    refine ih (stream.tail fun isEnd => ?_)
    have nothing := stream.ends.eq_nil isEnd
    simp at nothing

theorem readable_head (stream : IsStream source (token :: rest)) : token.Readable source :=
  stream.readable token List.mem_cons_self

end IsStream

/-- The kinds of tokens. -/
def kinds (tokens : List Token) : List Kind := tokens.map Token.kind

@[simp] theorem kinds_nil : kinds [] = [] := rfl

@[simp] theorem kinds_cons (token : Token) (tokens : List Token) :
    kinds (token :: tokens) = token.kind :: kinds tokens := rfl

@[simp] theorem kinds_append (first second : List Token) :
    kinds (first ++ second) = kinds first ++ kinds second := List.map_append

/-- The report that refuses the token. -/
def Token.RefusedBy (source : Text) (token : Token) (stop : Stop) : Prop :=
  ∃ message got location, stop = .refused (.unexpectedToken message got location) ∧
    Token.describe source (some token) = .ok got ∧ Location.locate source token.start = .ok location

/-- What a parser does to tokens that should start with a word of `L`, when a word of `K` should
follow: it reads a word of `L` after which only a word of `K` is possible, or it refuses the first
token that no word of `L` and then of `K` has at its place, or it refuses to nest deeper. -/
inductive Predicted {α : Type} (source : Text) (depth : Nat) (L K : Language Kind)
    (tokens : List Token) :
    Except Stop (α × Cursor (List Token)) → Prop
  | reads {a : α} {taken : List Token} {next : Token} {rest : List Token}
      (split : tokens = taken ++ next :: rest) (derived : kinds taken ∈ L)
      (forced : ∀ word, word.head? = some next.kind → kinds taken ++ word ∈ L * K → word ∈ K) :
      Predicted source depth L K tokens (.ok (a, on depth (next :: rest)))
  | refuses {stop : Stop} {front : List Token} {token : Token} {rest : List Token}
      (split : tokens = front ++ token :: rest) (report : token.RefusedBy source stop)
      (viable : ∃ more, kinds front ++ more ∈ L)
      (blocked : ∀ more, kinds front ++ token.kind :: more ∉ L * K) :
      Predicted source depth L K tokens (.error stop)
  | tooDeep {token : Token} {location : Location} (member : token ∈ tokens)
      (located : Location.locate source token.start = .ok location) :
      Predicted source depth L K tokens (.error (.refused (.nestingTooDeep maxNesting location)))

namespace Predicted

variable {α β : Type} {source : Text} {L M K : Language Kind} {tokens : List Token}
variable {result : Except Stop (α × Cursor (List Token))} {depth : Nat}

/-- A parser that reads nothing. -/
theorem stay {a : α} {next : Token} {rest : List Token} (derived : [] ∈ L)
    (forced : ∀ word, word.head? = some next.kind → word ∈ L * K → word ∈ K) :
    Predicted source depth L K (next :: rest) (.ok (a, on depth (next :: rest))) :=
  .reads (List.nil_append _).symm derived forced

/-- Words that go on at the same token start with the same kind. -/
theorem head?_kinds_append {taken rest : List Token} {next : Token} {word : List Kind}
    (starts : word.head? = some next.kind) :
    (kinds taken ++ word).head? = (kinds (taken ++ next :: rest)).head? := by
  cases taken with
  | nil => exact starts
  | cons token taken => rfl

/-- The tokens of a part whose first tokens are already behind. No word goes on behind them but
those of the rest of the part. -/
theorem prepend (inner : Predicted source depth L K tokens result) (front : List Token)
    (into : ∀ word ∈ L, kinds front ++ word ∈ M)
    (back : ∀ word, word.head? = (kinds tokens).head? → kinds front ++ word ∈ M * K →
      word ∈ L * K) : Predicted source depth M K (front ++ tokens) result := by
  cases inner with
  | @reads a taken next rest split derived forced =>
    subst split
    refine .reads (List.append_assoc _ _ _).symm ?_ fun word starts member => ?_
    · rw [kinds_append]
      exact into _ derived
    · rw [kinds_append, List.append_assoc] at member
      exact forced word starts (back _ (head?_kinds_append starts) member)
  | @refuses stop before token rest split report viable blocked =>
    subst split
    obtain ⟨more, completes⟩ := viable
    refine .refuses (List.append_assoc _ _ _).symm report ⟨more, ?_⟩ fun more member => ?_
    · rw [kinds_append, List.append_assoc]
      exact into _ completes
    · rw [kinds_append, List.append_assoc] at member
      exact blocked more (back _ (head?_kinds_append rfl) member)
  | tooDeep member located => exact .tooDeep (List.mem_append_right front member) located

/-- One part after the other. -/
theorem bind {next : α × Cursor (List Token) → Except Stop (β × Cursor (List Token))}
    (here : Predicted source depth L (M * K) tokens result) (exists_mem : ∃ word, word ∈ M)
    (later : ∀ a taken token rest, tokens = taken ++ token :: rest → kinds taken ∈ L →
      Predicted source depth M K (token :: rest) (next (a, on depth (token :: rest)))) :
    Predicted source depth (L * M) K tokens (result >>= next) := by
  cases here with
  | @reads a taken token rest split derived forced =>
    have rest := later a taken token rest split derived
    subst split
    refine rest.prepend taken (fun word => Language.append_mem_mul derived) fun word starts => ?_
    rw [mul_assoc]
    exact forced word starts
  | refuses split report viable blocked =>
    obtain ⟨more, completes⟩ := viable
    obtain ⟨word, member⟩ := exists_mem
    refine .refuses split report ⟨more ++ word, ?_⟩ fun more => ?_
    · rw [← List.append_assoc]
      exact Language.append_mem_mul completes member
    · rw [mul_assoc]
      exact blocked more
  | tooDeep member located => exact .tooDeep member located

/-- What is made of a part does not matter. -/
theorem map {next : α × Cursor (List Token) → Except Stop (β × Cursor (List Token))}
    (here : Predicted source depth L K tokens result)
    (same : ∀ a cursor, ∃ b, next (a, cursor) = .ok (b, cursor)) :
    Predicted source depth L K tokens (result >>= next) := by
  cases here with
  | @reads a taken token rest split derived forced =>
    obtain ⟨b, equal⟩ := same a (on depth (token :: rest))
    rw [ok_bind, equal]
    exact .reads split derived forced
  | refuses split report viable blocked => exact .refuses split report viable blocked
  | tooDeep member located => exact .tooDeep member located

/-- More may follow if it goes on with the part. -/
theorem absorb (here : Predicted source depth L K tokens result) (absorbs : L * M = L)
    (optional : [] ∈ M) : Predicted source depth L (M * K) tokens result := by
  have same : L * (M * K) = L * K := by rw [← mul_assoc, absorbs]
  cases here with
  | reads split derived forced =>
    refine .reads split derived fun word starts member => ?_
    rw [same] at member
    exact ⟨[], optional, word, forced word starts member, List.nil_append word⟩
  | refuses split report viable blocked =>
    refine .refuses split report viable fun more => ?_
    rw [same]
    exact blocked more
  | tooDeep member located => exact .tooDeep member located

end Predicted

/-- The parser does so to all streams. -/
def Predicts {α : Type} (source : Text) (L K : Language Kind) (parser : Parse (List Token) α) :
    Prop :=
  ∀ depth tokens, IsStream source tokens →
    Predicted source depth L K tokens (parser (on depth tokens))

namespace Predicts

open Grammar

variable {α β : Type} {source : Text} {L M K : Language Kind} {message : String}
variable {first : Parse (List Token) α} {next : α → Parse (List Token) β}

theorem bind (here : Predicts source L (M * K) first) (exists_mem : ∃ word, word ∈ M)
    (later : ∀ a, Predicts source M K (next a)) : Predicts source (L * M) K (first >>= next) := by
  intro depth tokens stream
  refine (here depth tokens stream).bind exists_mem fun a taken token rest split _ => ?_
  exact later a depth (token :: rest) (split ▸ stream).suffix

theorem map (here : Predicts source L K first) (make : α → β) :
    Predicts source L K (first >>= fun a => pure (make a)) := by
  intro depth tokens stream
  exact (here depth tokens stream).map fun a _ => ⟨make a, rfl⟩

end Predicts

/-! ## Steps -/

section Steps

open Grammar

variable {source : Text} {L M K : Language Kind} {message : String}

theorem Token.Readable.exists_describe {token : Token} (readable : token.Readable source) :
    ∃ got, Token.describe source (some token) = .ok got := by
  obtain ⟨⟨text, cut⟩, -⟩ := readable
  by_cases isEnd : token.kind = .eof
  · exact ⟨"EOF", if_pos isEnd⟩
  · exact ⟨text, (if_neg isEnd).trans cut⟩

/-- A token that starts no word is refused. -/
theorem predicted_unexpected {α : Type} {depth : Nat} {token : Token} {rest : List Token}
    (readable : token.Readable source) (exists_mem : ∃ word, word ∈ L)
    (blocked : ∀ more, token.kind :: more ∉ L * K) :
    Predicted source depth L K (token :: rest)
      (unexpected source message (on depth (token :: rest)) : Except Stop (α × _)) := by
  obtain ⟨got, described⟩ := readable.exists_describe
  obtain ⟨location, located⟩ := readable.2
  have unfolded : (unexpected source message (on depth (token :: rest)) : Except Stop (α × _)) =
      Token.describe source (some token) >>= fun got =>
        Location.locate source token.start >>= fun location =>
          .error (.refused (.unexpectedToken message got location)) := rfl
  rw [unfolded, described, located]
  exact .refuses (List.nil_append _).symm ⟨message, got, location, rfl, described, located⟩
    exists_mem blocked

/-- Nothing happens after a refusal. -/
theorem unexpected_bind {α β : Type} {source : Reader} {cursor : Cursor (List Token)}
    (next : α × Cursor (List Token) → Except Stop (β × Cursor (List Token))) :
    unexpected source message cursor >>= next = unexpected source message cursor := by
  unfold unexpected
  cases Token.describe source.text (some cursor.current) with
  | error stop => rfl
  | ok got => cases source.locate cursor.current.start <;> rfl

theorem predicts_expect {kind : Kind} (other : kind ≠ .eof) :
    Predicts source (lit kind) K (expect source kind message) := by
  intro depth tokens stream
  obtain ⟨token, rest, rfl⟩ := List.exists_cons_of_ne_nil stream.ends.ne_nil
  by_cases isKind : token.kind = kind
  · have later := stream.ends.tail (isKind ▸ other)
    obtain ⟨next, rest, rfl⟩ := List.exists_cons_of_ne_nil later.ne_nil
    rw [expect_on isKind later.ne_nil]
    refine .reads (List.singleton_append).symm (by simp [isKind]) fun word _ member => ?_
    exact (cons_mem_lit_mul.1 member).2
  · rw [expect_eq, if_neg (by exact isKind)]
    exact predicted_unexpected stream.readable_head exists_mem_lit fun more member =>
      isKind (cons_mem_lit_mul.1 member).1

theorem predicts_expectName : Predicts source (lit .ident) K (expectName source message) := by
  intro depth tokens stream
  obtain ⟨token, rest, rfl⟩ := List.exists_cons_of_ne_nil stream.ends.ne_nil
  by_cases isName : token.kind = .ident
  · obtain ⟨text, cut⟩ := stream.readable_head.1
    have later := stream.ends.tail (by rw [isName]; decide)
    obtain ⟨next, rest, rfl⟩ := List.exists_cons_of_ne_nil later.ne_nil
    rw [expectName_on isName cut later.ne_nil]
    refine .reads (List.singleton_append).symm (by simp [isName]) fun word _ member => ?_
    exact (cons_mem_lit_mul.1 member).2
  · have unfolded : expectName source message (on depth (token :: rest)) =
        expect source .ident message (on depth (token :: rest)) >>= fun found =>
          (Token.text source found.1 >>= fun text => .ok (text, found.2)) := rfl
    rw [unfolded, expect_eq, if_neg (by exact isName), unexpected_bind]
    exact predicted_unexpected stream.readable_head exists_mem_lit fun more member =>
      isName (cons_mem_lit_mul.1 member).1

/-- Items with commas between them. -/
theorem predicts_commaSeparated {α : Type} {item : Parse (List Token) α}
    (each : Predicts source L ((1 + lit .comma * M) * K) item)
    (unfolds : M = L * (1 + lit .comma * M)) (noComma : Starts (· ≠ .comma) K) :
    Predicts source M K (commaSeparated item) := by
  intro depth tokens stream
  -- on the length: behind a comma fewer tokens are left
  induction length : tokens.length using Nat.strong_induction_on generalizing tokens with
  | _ bound ih =>
    subst length
    rw [commaSeparated_eq, unfolds]
    refine (each depth tokens stream).bind exists_mem_one_add fun a taken token rest split _ => ?_
    subst split
    have here : IsStream source (token :: rest) := stream.suffix
    have choices (word : List Kind) : word ∈ (1 + lit .comma * M) * K ↔
        word ∈ K ∨ word ∈ lit .comma * (M * K) := by
      rw [add_mul, one_mul, mul_assoc, Language.mem_add]
    by_cases isComma : token.kind = .comma
    · have later : IsStream source rest := here.tail (by rw [isComma]; decide)
      have more := List.length_pos_iff.2 later.ends.ne_nil
      have shorter : (on depth rest).remaining < (on depth (taken ++ token :: rest)).remaining := by
        simp only [remaining_on, List.length_append, List.length_cons]
        omega
      rw [accept_on isComma later.ends.ne_nil, ok_bind, if_pos rfl, if_pos shorter]
      have others := ih rest.length (by simp; omega) rest later rfl
      refine (others.map fun b _ => ⟨a :: b, rfl⟩).prepend [token] (fun word member => ?_)
        fun word _ member => ?_
      · exact .inr (cons_mem_lit_mul.2 ⟨isComma, member⟩)
      · obtain member | member := (choices _).1 member
        · exact absurd isComma (noComma.head member)
        · exact (cons_mem_lit_mul.1 member).2
    · rw [accept_on_other (by exact isComma)]
      refine .stay (.inl rfl) fun word starts member => ?_
      obtain member | member := (choices word).1 member
      · exact member
      · obtain ⟨others, -, rfl⟩ := mem_lit_mul.1 member
        exact absurd (Option.some.inj starts).symm isComma

end Steps

/-! ## Expressions -/

namespace Parser

open Grammar

variable {source : Text} {K : Language Kind} {sub : Parse (List Token) Expr}

/-- The kinds of tokens that can neither go on with an expression nor make a call of a name. -/
def Closing (kind : Kind) : Prop := binOp? kind = none ∧ kind ≠ .leftParen

/-- A parser of expressions, whatever closes them. -/
def PredictsExprs (source : Text) (parser : Parse (List Token) Expr) : Prop :=
  ∀ K, Starts Closing K → Predicts source Symbol.expr.language K parser

theorem predicts_args (onSub : PredictsExprs source sub) (closed : Starts (· = .rightParen) K) :
    Predicts source Symbol.args.language K (args sub) := by
  intro depth tokens stream
  obtain ⟨token, rest, rfl⟩ := List.exists_cons_of_ne_nil stream.ends.ne_nil
  have choices (word : List Kind) : word ∈ Symbol.args.language * K ↔
      word ∈ K ∨ word ∈ Symbol.exprs.language * K := by
    rw [Symbol.language_args, add_mul, one_mul, Language.mem_add]
  rw [args_eq]
  by_cases isParen : token.kind = .rightParen
  · rw [if_pos (by exact isParen)]
    refine .stay .noArgs fun word starts member => ?_
    obtain member | member := (choices word).1 member
    · exact member
    · obtain ⟨kind, others, rfl, starting⟩ := starts_exprs.mul word member
      rw [Option.some.inj starts] at starting
      exact absurd isParen (starting.ne (by simp [Expr.StartsWith]))
  · rw [if_neg (by exact isParen)]
    have noComma : Starts (· ≠ .comma) K := closed.mono (by rintro _ rfl; decide)
    have items : Starts Closing ((1 + lit .comma * Symbol.exprs.language) * K) :=
      .one_add_mul (Starts.lit ⟨rfl, by decide⟩).mul
        (closed.mono (by rintro _ rfl; exact ⟨rfl, by decide⟩))
    have listed :=
      predicts_commaSeparated (onSub _ items) Symbol.language_exprs noComma depth _ stream
    refine listed.prepend [] (fun word => .args) fun word starts member => ?_
    obtain member | member := (choices word).1 member
    · obtain ⟨kind, others, rfl, isRight⟩ := closed word member
      exact absurd ((Option.some.inj starts).symm.trans isRight) isParen
    · exact member

theorem primary_of_other {depth : Nat} {token : Token} {rest : List Token}
    (other : ¬ Expr.StartsWith token.kind) :
    primary source sub (on depth (token :: rest)) =
      unexpected source "expected an expression" (on depth (token :: rest)) := by
  unfold primary
  rw [bind_of_ok (currentKind_on rfl)]
  cases isKind : token.kind with
  | number => exact absurd (.inl isKind) other
  | ident => exact absurd (.inr (.inl isKind)) other
  | ifWord => exact absurd (.inr (.inr isKind)) other
  | _ => rfl

theorem predicts_conditional (onSub : PredictsExprs source sub) (closed : Starts Closing K) :
    Predicts source (lit .ifWord * Symbol.conditionalRest) (Symbol.tail * K)
      (conditional source sub) := by
  have before {kind : Kind} {M N : Language Kind} (closes : Closing kind) :
      Predicts source Symbol.expr.language (lit kind * M * N) sub :=
    onSub _ (Starts.lit closes).mul.mul
  have last : Predicts source Symbol.expr.language (Symbol.tail * K) sub :=
    fun depth tokens stream =>
      (onSub K closed depth tokens stream).absorb Symbol.expr_mul_tail (.inl rfl)
  unfold conditional Symbol.conditionalRest
  refine (predicts_expect (by decide)).bind (by simp) fun _ => ?_
  refine (before ⟨rfl, by decide⟩).bind (by simp) fun left => ?_
  refine (predicts_expect (by decide)).bind (by simp) fun _ => ?_
  refine (before ⟨rfl, by decide⟩).bind (by simp) fun right => ?_
  refine (predicts_expect (by decide)).bind (by simp) fun _ => ?_
  refine (before ⟨rfl, by decide⟩).bind (by simp) fun whenEqual => ?_
  exact (predicts_expect (by decide)).bind (by simp) fun _ => last.map _

/-- The arguments of a call and the parenthesis after them. -/
theorem predicts_callRest (onSub : PredictsExprs source sub) (name : String) :
    Predicts source Symbol.callRest K (do
      let args ← args sub
      let _ ← expect source .rightParen "expected ')' after the arguments"
      return Expr.call name args) := by
  have closed : Starts (· = .rightParen) (lit .rightParen * K) := Starts.mul (.lit rfl)
  refine (predicts_args onSub closed).bind exists_mem_lit fun args => ?_
  exact (predicts_expect (by decide)).map _

theorem mem_primary_mul {word : List Kind} :
    word ∈ Symbol.primary.language * K ↔ word ∈ lit .number * K ∨ word ∈ lit .ident * K ∨
      word ∈ lit .ident * (lit .leftParen * (Symbol.callRest * K)) ∨
      word ∈ lit .ifWord * (Symbol.conditionalRest * K) := by
  simp only [Symbol.language_primary, add_mul, mul_assoc, Language.mem_add]

theorem starts_tail_mul (closed : Starts Closing K) :
    Starts (· ≠ .leftParen) (Symbol.tail * K) := by
  refine .one_add_mul (Starts.mul (.add (.lit (by decide)) (.lit (by decide)))) ?_
  exact closed.mono fun kind closes => closes.2

/-- A name is a variable if no parenthesis follows, and the start of a call if one does. -/
theorem predicted_name (onSub : PredictsExprs source sub) (closed : Starts (· ≠ .leftParen) K)
    {depth : Nat} {token : Token} {rest : List Token} (stream : IsStream source (token :: rest))
    (isName : token.kind = .ident) :
    Predicted source depth Symbol.primary.language K (token :: rest)
      (primary source sub (on depth (token :: rest))) := by
  obtain ⟨text, cut⟩ := stream.readable_head.1
  have later : IsStream source rest := stream.tail (by rw [isName]; decide)
  obtain ⟨next, others, rfl⟩ := List.exists_cons_of_ne_nil later.ends.ne_nil
  rw [primary_of_name isName]
  by_cases isParen : next.kind = .leftParen
  · have inner : IsStream source others := later.tail (by rw [isParen]; decide)
    rw [if_pos isParen]
    unfold call
    rw [bind_of_ok (expectName_on isName cut later.ends.ne_nil),
      bind_of_ok (expect_on isParen inner.ends.ne_nil)]
    refine (predicts_callRest onSub text depth others inner).prepend [token, next]
      (fun word member => ?_) fun word _ member => ?_
    · rw [Symbol.language_primary]
      exact .inr (.inr (.inl (cons_mem_lit_mul.2 ⟨isName, cons_mem_lit_mul.2 ⟨isParen, member⟩⟩)))
    · -- no word of `K` starts with the parenthesis, so the name alone is not the primary
      have notAfter : .leftParen :: word ∉ K := fun member => closed.head member rfl
      simpa [mem_primary_mul, isName, isParen, notAfter] using member
  · rw [if_neg isParen, bind_of_ok (expectName_on isName cut later.ends.ne_nil)]
    have read : Predicted source depth 1 K (next :: others)
        (.ok (Expr.var text, on depth (next :: others))) :=
      .stay rfl fun word _ member => by rwa [one_mul] at member
    refine read.prepend [token] (fun word member => ?_) fun word starts member => ?_
    · rw [(Language.mem_one word).1 member, kinds_cons, isName]
      exact .var
    · obtain ⟨following, rfl⟩ := List.head?_eq_some_iff.1 starts
      simpa [mem_primary_mul, isName, isParen] using member

theorem predicts_primary (onSub : PredictsExprs source sub) (closed : Starts Closing K) :
    Predicts source Symbol.primary.language (Symbol.tail * K) (primary source sub) := by
  intro depth tokens stream
  obtain ⟨token, rest, rfl⟩ := List.exists_cons_of_ne_nil stream.ends.ne_nil
  by_cases isNumber : token.kind = .number
  · rw [primary_of_number isNumber]
    refine ((predicts_expect (by decide)).map _ _ _ stream).prepend []
      (fun word member => ?_) fun word starts member => ?_
    · rw [mem_lit.1 member]
      exact .number
    · obtain ⟨following, rfl⟩ := List.head?_eq_some_iff.1 starts
      simpa [mem_primary_mul, isNumber] using member
  by_cases isName : token.kind = .ident
  · exact predicted_name onSub (starts_tail_mul closed) stream isName
  by_cases isIf : token.kind = .ifWord
  · rw [primary_of_if isIf]
    refine (predicts_conditional onSub closed _ _ stream).prepend [] (fun word member => ?_)
      fun word starts member => ?_
    · rw [Symbol.language_primary]
      exact .inr (.inr (.inr member))
    · obtain ⟨following, rfl⟩ := List.head?_eq_some_iff.1 starts
      simpa [mem_primary_mul, isIf, mul_assoc] using member
  have other : ¬ Expr.StartsWith token.kind := by simp [Expr.StartsWith, isNumber, isName, isIf]
  rw [primary_of_other other]
  exact predicted_unexpected stream.readable_head (Symbol.exists_mem_language _)
    fun more member => other (starts_primary.mul.head member)

/-- A chain goes on at an operator, and nowhere else. -/
theorem predicts_chain (onSub : PredictsExprs source sub) :
    PredictsExprs source (chain source sub) := by
  intro K closed
  have choices (kind : Kind) (word : List Kind) : kind :: word ∈ Symbol.tail * K ↔
      kind :: word ∈ K ∨ (kind = .plus ∨ kind = .minus) ∧ word ∈ Symbol.expr.language * K := by
    rw [Symbol.tail, add_mul, one_mul, mul_assoc, Language.mem_add, Symbol.cons_mem_operator_mul]
  unfold chain
  rw [Symbol.language_expr]
  refine (predicts_primary onSub closed).bind exists_mem_one_add fun left depth tokens stream => ?_
  obtain ⟨token, rest, rfl⟩ := List.exists_cons_of_ne_nil stream.ends.ne_nil
  rw [bind_of_ok (currentKind_on rfl)]
  cases chosen : binOp? token.kind with
  | none =>
    refine .stay (.inl rfl) fun word starts member => ?_
    obtain ⟨following, rfl⟩ := List.head?_eq_some_iff.1 starts
    obtain member | ⟨isPlus | isMinus, -⟩ := (choices _ _).1 member
    · exact member
    · rw [isPlus] at chosen
      cases chosen
    · rw [isMinus] at chosen
      cases chosen
  | some op =>
    have isOp : token.kind = .plus ∨ token.kind = .minus := by
      rw [binOp?_eq_some chosen]
      cases op <;> simp [BinOp.kind]
    have later : IsStream source rest :=
      stream.tail fun isEnd => by rw [isEnd] at chosen; cases chosen
    show Predicted source depth Symbol.tail K (token :: rest) ((do
      advance
      let right ← sub
      return Expr.binary op left right : Parse (List Token) Expr) (on depth (token :: rest)))
    rw [bind_of_ok (advance_on later.ends.ne_nil)]
    refine ((onSub K closed).map _ _ _ later).prepend [token] (fun word member => ?_)
      fun word _ member => ?_
    · exact .inr (Symbol.cons_mem_operator_mul.2 ⟨isOp, member⟩)
    · -- nothing that follows the whole chain starts with an operator
      obtain member | ⟨-, member⟩ := (choices _ _).1 member
      · exact absurd (closed.head member).1 (by rw [chosen]; simp)
      · exact member

theorem predicted_tooDeep {depth : Nat} {tokens : List Token} (stream : IsStream source tokens) :
    Predicted source depth Symbol.expr.language K tokens (tooDeep source (on depth tokens)) := by
  obtain ⟨token, rest, rfl⟩ := List.exists_cons_of_ne_nil stream.ends.ne_nil
  obtain ⟨location, located⟩ := stream.readable_head.2
  have unfolded : tooDeep source (on depth (token :: rest)) =
      Location.locate source token.start >>= fun location =>
        .error (.refused (.nestingTooDeep maxNesting location)) := rfl
  rw [unfolded, located]
  exact .tooDeep List.mem_cons_self located

/-- A level is closed where it was opened, if the parser reads on from there. -/
theorem predicts_nested (onSub : PredictsExprs source sub) :
    PredictsExprs source (nested source sub) := by
  intro K closed depth tokens stream
  have inside : Predicted source (depth + 1) Symbol.expr.language K tokens
      (sub { on depth tokens with depth := (on depth tokens).depth + 1 }) :=
    onSub K closed (depth + 1) tokens stream
  rw [nested_ofText]
  generalize sub { on depth tokens with depth := (on depth tokens).depth + 1 } = result at inside ⊢
  cases inside with
  | reads split derived forced => exact .reads split derived forced
  | refuses split report viable blocked => exact .refuses split report viable blocked
  | tooDeep member located => exact .tooDeep member located

/-- Expressions are predicted at every level. -/
theorem predicts_expr (source : Text) (levels : Nat) :
    PredictsExprs source (expr source levels) := by
  induction levels with
  | zero =>
    intro K closed depth tokens stream
    exact predicted_tooDeep stream
  | succ levels ih =>
    intro K closed depth tokens stream
    rw [expr_succ]
    split
    · exact predicts_nested (predicts_chain ih) K closed depth tokens stream
    · exact predicted_tooDeep stream

/-! ## Declarations -/

theorem predicts_params (closed : Starts (· = .rightParen) K) :
    Predicts source Symbol.params.language K (params source) := by
  intro depth tokens stream
  obtain ⟨token, rest, rfl⟩ := List.exists_cons_of_ne_nil stream.ends.ne_nil
  have choices (word : List Kind) : word ∈ Symbol.params.language * K ↔
      word ∈ K ∨ word ∈ Symbol.names.language * K := by
    rw [Symbol.language_params, add_mul, one_mul, Language.mem_add]
  rw [params_eq]
  by_cases isName : token.kind = .ident
  · rw [if_pos (by exact isName)]
    have noComma : Starts (· ≠ .comma) K := closed.mono (by rintro _ rfl; decide)
    refine (predicts_commaSeparated predicts_expectName Symbol.language_names noComma _ _
      stream).prepend [] (fun word => .params) fun word starts member => ?_
    obtain member | member := (choices word).1 member
    · obtain ⟨kind, others, rfl, isParen⟩ := closed word member
      rw [Option.some.inj starts] at isParen
      cases isParen.symm.trans isName
    · exact member
  · rw [if_neg (by exact isName)]
    refine .stay .noParams fun word starts member => ?_
    obtain member | member := (choices word).1 member
    · exact member
    · obtain ⟨kind, others, rfl, isIdent⟩ := starts_names.mul word member
      exact absurd ((Option.some.inj starts).symm.trans isIdent) isName

theorem predicts_function (closed : Starts Closing K) :
    Predicts source Symbol.functionRest K (function source) := by
  unfold function Symbol.functionRest
  refine predicts_expectName.bind (by simp) fun name => ?_
  refine (predicts_expect (by decide)).bind (by simp) fun _ => ?_
  have paren {M N : Language Kind} : Starts (· = .rightParen) (lit .rightParen * M * N) :=
    Starts.mul (Starts.mul (.lit rfl))
  refine (predicts_params paren).bind (by simp) fun params => ?_
  refine (predicts_expect (by decide)).bind (by simp) fun _ => ?_
  refine (predicts_expect (by decide)).bind (by simp) fun _ => ?_
  exact (predicts_expr source maxNesting K closed).map _

theorem predicts_decl (closed : Starts Closing K) :
    Predicts source Symbol.declaration.language K (decl source) := by
  intro depth tokens stream
  obtain ⟨token, rest, rfl⟩ := List.exists_cons_of_ne_nil stream.ends.ne_nil
  have choices (word : List Kind) : word ∈ Symbol.declaration.language * K ↔
      word ∈ lit .defWord * (Symbol.functionRest * K) ∨ word ∈ Symbol.expr.language * K := by
    rw [Symbol.language_declaration, add_mul, mul_assoc, Language.mem_add]
  by_cases isDef : token.kind = .defWord
  · have later : IsStream source rest := stream.tail (by rw [isDef]; decide)
    rw [decl_of_def isDef later.ends.ne_nil]
    refine ((predicts_function closed).map _ _ _ later).prepend [token] (fun word member => ?_)
      fun word _ member => ?_
    · rw [Symbol.language_declaration]
      exact .inl (cons_mem_lit_mul.2 ⟨isDef, member⟩)
    · obtain member | member := (choices _).1 member
      · exact (cons_mem_lit_mul.1 member).2
      · exact absurd isDef ((starts_expr.mul.head member).ne (by simp [Expr.StartsWith]))
  · rw [decl_of_other (by exact isDef)]
    refine ((predicts_expr source maxNesting K closed).map _ _ _ stream).prepend []
      (fun word => .statement) fun word starts member => ?_
    obtain member | member := (choices word).1 member
    · obtain ⟨others, -, rfl⟩ := mem_lit_mul.1 member
      exact absurd (Option.some.inj starts).symm isDef
    · exact member

end Parser

/-! ## Programs -/

open Grammar

/-- What follows a declaration closes its expression. -/
theorem starts_program_mul :
    Starts Parser.Closing (Symbol.program.language * lit .eof) := by
  have declares : Starts Parser.Closing Symbol.declaration.language := by
    refine starts_declaration.mono ?_
    rintro kind (rfl | rfl | rfl | rfl) <;> exact ⟨rfl, by decide⟩
  rw [Symbol.language_program]
  exact .one_add_mul declares.mul (.lit ⟨rfl, by decide⟩)

/-- Declarations up to the end. -/
theorem predicts_program (source : Text) :
    Predicts source Symbol.program.language (lit .eof) (untilEnd (Parser.decl source)) := by
  intro depth tokens stream
  induction length : tokens.length using Nat.strong_induction_on generalizing tokens with
  | _ bound ih =>
    subst length
    obtain ⟨first, others, rfl⟩ := List.exists_cons_of_ne_nil stream.ends.ne_nil
    have choices (word : List Kind) : word ∈ Symbol.program.language * lit .eof ↔
        word = [.eof] ∨
          word ∈ Symbol.declaration.language * (Symbol.program.language * lit .eof) := by
      conv_lhs => rw [Symbol.language_program, add_mul, one_mul, mul_assoc, Language.mem_add]
      rfl
    rw [Parser.untilEnd_eq]
    by_cases isEnd : first.kind = .eof
    · rw [if_pos (by exact isEnd)]
      refine .stay .noDeclarations fun word starts member => ?_
      obtain member | member := (choices word).1 member
      · exact member
      · obtain ⟨kind, others, rfl, starting⟩ := starts_declaration.mul word member
        rw [Option.some.inj starts, isEnd] at starting
        simp [Expr.StartsWith] at starting
    · rw [if_neg (by exact isEnd)]
      have item := Parser.predicts_decl starts_program_mul depth (first :: others) stream
      refine (item.bind (Symbol.exists_mem_language _) fun a taken token rest split derived =>
        ?_).prepend [] (fun word member => ?_) fun word starts member => ?_
      · -- a declaration has at least one token, so the loop is not endless
        obtain ⟨kind, following, nonempty, -⟩ := starts_declaration _ derived
        have moved : 0 < taken.length := by
          have length := congrArg List.length nonempty
          simp only [kinds, List.length_map, List.length_cons] at length
          omega
        have lengths := congrArg List.length split
        simp only [List.length_append, List.length_cons] at lengths
        have shorter :
            (on depth (token :: rest)).remaining < (on depth (first :: others)).remaining := by
          simp only [remaining_on, List.length_cons]
          omega
        dsimp only
        rw [if_pos shorter]
        have later := ih (token :: rest).length (by simp only [List.length_cons]; omega)
          (token :: rest) (split ▸ stream).suffix rfl
        exact later.map fun b _ => ⟨a :: b, rfl⟩
      · rw [Symbol.language_program]
        exact .inr member
      · obtain rfl | member := (choices word).1 member
        · exact absurd (Option.some.inj starts).symm isEnd
        · rwa [mul_assoc]

variable {source : Text} {tokens : List Token}

/-- The tokens are a program, however deeply its expressions are nested. -/
def Derivable (tokens : List Token) : Prop := Derives .program (kinds tokens)

/-- Any word can be made of tokens. -/
theorem exists_kinds_eq (word : List Kind) : ∃ tokens, kinds tokens = word :=
  ⟨word.map fun kind => { kind, start := 0, length := 0 }, by simp [kinds, Function.comp_def]⟩

/-- A token that is refused is the first at which the tokens stop being the start of a program:
those before it can be completed, those up to it cannot, and if it is the end token, those before
it are not yet a program. The report quotes this token, at its place. -/
theorem unexpectedToken_is_first (lexed : tokenize source = .ok tokens) {message got : String}
    {location : Location}
    (refused : parseTokens source tokens =
      .error (.refused (.unexpectedToken message got location))) :
    ∃ k token, tokens[k]? = some token ∧
      Location.ofOffset? source token.start = some location ∧
      (if token.kind = .eof then got = "EOF" else token.text source = .ok got) ∧
      (∃ more, Derivable (tokens.take k ++ more)) ∧
      (∀ more, ¬ Derivable (tokens.take (k + 1) ++ more)) ∧
      (token.kind = .eof → ¬ Derivable (tokens.take k)) := by
  obtain ⟨ends, readable⟩ := tokenize_eq_ok lexed
  have predicted := predicts_program source 0 tokens ⟨ends, readable⟩
  rw [parseTokens_eq ends.ne_nil] at refused
  generalize untilEnd (Parser.decl source) (on 0 tokens) = result at predicted refused
  cases predicted with
  | reads => cases refused
  | tooDeep => cases refused
  | @refuses stop front token rest split report viable blocked =>
    obtain ⟨_, _, _, rfl, described, located⟩ := report
    cases refused
    subst split
    have upTo : (front ++ token :: rest).take (front.length + 1) = front ++ [token] :=
      List.take_length_add_append 1
    have noProgram (word : List Kind) (starts : (word ++ [Kind.eof]).head? = some token.kind) :
        ¬ Derives .program (kinds front ++ word) := by
      intro derived
      obtain ⟨more, equal⟩ := List.head?_eq_some_iff.1 starts
      have member : kinds front ++ word ++ [.eof] ∈ Symbol.program.language * lit .eof :=
        Language.append_mem_mul derived rfl
      rw [List.append_assoc, equal] at member
      exact blocked more member
    refine ⟨front.length, token, by simp, ?_, ?_, ?_, ?_, ?_⟩
    · unfold Location.locate at located
      split at located <;> cases located
      assumption
    · by_cases isEnd : token.kind = .eof
      · rw [if_pos isEnd]
        exact (Except.ok.inj ((if_pos isEnd).symm.trans described)).symm
      · rw [if_neg isEnd]
        exact (if_neg isEnd).symm.trans described
    · obtain ⟨word, completes⟩ := viable
      obtain ⟨more, rfl⟩ := exists_kinds_eq word
      refine ⟨more, ?_⟩
      rw [List.take_left, Derivable, kinds_append]
      exact completes
    · intro more
      rw [upTo, Derivable, List.append_assoc, kinds_append]
      exact noProgram _ rfl
    · intro isEnd
      rw [List.take_left, Derivable, ← List.append_nil (kinds front)]
      exact noProgram [] (congrArg some isEnd.symm)

/-- The source `f(if 1 2`, whose tokens stop being the start of a program at the `2`. -/
def unfinished : Text := ['f', '(', 'i', 'f', ' ', '1', ' ', '2']

/-- Its tokens. -/
def unfinishedTokens : List Token :=
  [{ kind := .ident, start := 0, length := 1 }, { kind := .leftParen, start := 1, length := 1 },
    { kind := .ifWord, start := 2, length := 2 },
    { kind := .number, start := 5, length := 1, value := some 1 },
    { kind := .number, start := 7, length := 1, value := some 2 },
    { kind := .eof, start := 8, length := 0 }]

theorem unexpectedToken_unfinished :
    tokenize unfinished = .ok unfinishedTokens ∧
      ∃ k token, unfinishedTokens[k]? = some token ∧
        Location.ofOffset? unfinished token.start =
          some { line := 1, column := 7, lineText := "f(if 1 2" } ∧
        (if token.kind = .eof then "2" = "EOF" else token.text unfinished = .ok "2") ∧
        (∃ more, Derivable (unfinishedTokens.take k ++ more)) ∧
        (∀ more, ¬ Derivable (unfinishedTokens.take (k + 1) ++ more)) ∧
        (token.kind = .eof → ¬ Derivable (unfinishedTokens.take k)) := by
  have lexed : tokenize unfinished = .ok unfinishedTokens := by decide +kernel
  have refused : parseTokens unfinished unfinishedTokens =
      .error (.refused (.unexpectedToken "expected '=' in the 'if' condition" "2"
        { line := 1, column := 7, lineText := "f(if 1 2" })) := by decide +kernel
  exact ⟨lexed, unexpectedToken_is_first lexed refused⟩

end FunMips
