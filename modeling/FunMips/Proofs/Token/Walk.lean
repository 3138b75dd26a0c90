import FunMips.Program.Spelling
import FunMips.Proofs.Token.Stream
import FunMips.Token.Cursor

/-!
# Walking over lists of tokens

What the steps of a parser do when its tokens are a list that ends in the end token. The cursor
stands on the first token of those that are left (`Cursor.on`), so that what a parser has read is
what lies between two lists.
-/

namespace FunMips

namespace Terminal

/-- The kind of the tokens that say the terminal. -/
def kind : Terminal → Kind
  | mark kind => kind
  | number _ => .number
  | name _ => .ident

end Terminal

namespace Token

variable {source : Text} {token : Token}

/-- What a readable token says. -/
def word (source : Text) (token : Token) : Terminal :=
  match token.kind with
  | .number => .number (token.value.getD 0)
  | .ident => .name ((token.text source).toOption.getD "")
  | kind => .mark kind

theorem terminal_eq_word (readable : token.Readable source) :
    token.terminal source = .ok (token.word source) := by
  obtain ⟨⟨text, cut⟩, -⟩ := readable
  unfold terminal word
  cases token.kind with
  | ident =>
    rw [cut]
    rfl
  | _ => rfl

theorem kind_word : (token.word source).kind = token.kind := by
  unfold word
  split
  · next isNumber => exact isNumber.symm
  · next isName => exact isName.symm
  · rfl

theorem kind_of_word {terminal : Terminal} (spoken : token.word source = terminal) :
    token.kind = terminal.kind := by
  rw [← spoken, kind_word]

theorem word_of_mark {kind : Kind} (isMark : token.kind = kind) (notNumber : kind ≠ .number)
    (notName : kind ≠ .ident) : token.word source = .mark kind := by
  subst isMark
  unfold word
  split
  · next isNumber => exact absurd isNumber notNumber
  · next isName => exact absurd isName notName
  · rfl

theorem word_of_number (isNumber : token.kind = .number) :
    token.word source = .number (token.value.getD 0) := by
  unfold word
  rw [isNumber]

theorem word_of_name {text : String} (isName : token.kind = .ident)
    (cut : token.text source = .ok text) : token.word source = .name text := by
  unfold word
  rw [isName, cut]
  rfl

/-- A readable token that says a name has it as its text. -/
theorem text_of_word {name : String} (readable : token.Readable source)
    (spoken : token.word source = .name name) : token.text source = .ok name := by
  obtain ⟨⟨text, cut⟩, -⟩ := readable
  rw [word_of_name (kind_of_word spoken) cut] at spoken
  cases spoken
  exact cut

end Token

theorem mapM_terminal {source : Text} {tokens : List Token}
    (readable : ∀ token ∈ tokens, token.Readable source) :
    tokens.mapM (Token.terminal source) = .ok (tokens.map (Token.word source)) := by
  induction tokens with
  | nil => rfl
  | cons token tokens ih =>
    obtain ⟨here, later⟩ := List.forall_mem_cons.1 readable
    rw [List.mapM_cons, Token.terminal_eq_word here, ih later]
    rfl

/-- The tokens can be read and say the terminals. -/
structure Writes (source : Text) (tokens : List Token) (terminals : List Terminal) : Prop where
  words : tokens.map (Token.word source) = terminals
  readable : ∀ token ∈ tokens, token.Readable source

namespace Writes

variable {source : Text} {tokens : List Token} {terminal : Terminal}
variable {terminals others : List Terminal}

theorem split (writes : Writes source tokens (terminals ++ others)) :
    ∃ first second, tokens = first ++ second ∧ Writes source first terminals ∧
      Writes source second others := by
  obtain ⟨words, readable⟩ := writes
  obtain ⟨first, second, rfl, here, later⟩ := List.map_eq_append_iff.1 words
  obtain ⟨inFirst, inSecond⟩ := List.forall_mem_append.1 readable
  exact ⟨first, second, rfl, ⟨here, inFirst⟩, ⟨later, inSecond⟩⟩

theorem uncons (writes : Writes source tokens (terminal :: terminals)) :
    ∃ token rest, tokens = token :: rest ∧ token.word source = terminal ∧
      token.Readable source ∧ Writes source rest terminals := by
  obtain ⟨words, readable⟩ := writes
  obtain ⟨token, rest, rfl, here, later⟩ := List.map_eq_cons_iff.1 words
  obtain ⟨inFirst, inRest⟩ := List.forall_mem_cons.1 readable
  exact ⟨token, rest, rfl, here, inFirst, ⟨later, inRest⟩⟩

theorem eq_nil (writes : Writes source tokens []) : tokens = [] :=
  List.map_eq_nil_iff.1 writes.words

theorem singleton (writes : Writes source tokens [terminal]) :
    ∃ token, tokens = [token] ∧ token.word source = terminal ∧ token.Readable source := by
  obtain ⟨token, rest, rfl, spoken, readable, nothing⟩ := writes.uncons
  obtain rfl := nothing.eq_nil
  exact ⟨token, rfl, spoken, readable⟩

end Writes

/-- The terminals of several things with commas between them. -/
def separated {α : Type} (spell : α → List Terminal) : List α → List Terminal
  | [] => []
  | [a] => spell a
  | a :: b :: others => spell a ++ .mark .comma :: separated spell (b :: others)

theorem namesSpelling_eq (names : List String) :
    namesSpelling names = separated (fun name => [.name name]) names := by
  induction names with
  | nil => rfl
  | cons name names ih =>
    cases names with
    | nil => rfl
    | cons next names =>
      rw [namesSpelling, ih]
      · rfl
      · simp

theorem Expr.argsSpelling_eq (args : List Expr) :
    Expr.argsSpelling args = separated Expr.spelling args := by
  induction args with
  | nil => rfl
  | cons arg args ih =>
    cases args with
    | nil => rfl
    | cons next args =>
      rw [Expr.argsSpelling, ih]
      · rfl
      · simp

namespace Cursor

/-- The cursor on the first of the tokens that are left, with so many levels open. -/
def on (depth : Nat) (tokens : List Token) : Cursor (List Token) where
  current := tokens.headD { kind := .eof, start := 0, length := 0 }
  lookahead := none
  feed := tokens.tail
  depth

section Steps

variable {source : Text} {kind : Kind} {message name : String} {token : Token}
variable {tokens : List Token} {after : Cursor (List Token)} {depth : Nat}

theorem ofFeed_eq (more : tokens ≠ []) : ofFeed source tokens = .ok (on 0 tokens) := by
  cases tokens with
  | nil => exact absurd rfl more
  | cons token tokens => rfl

theorem remaining_on (depth : Nat) (tokens : List Token) :
    (on depth tokens).remaining = tokens.length - 1 := by
  cases tokens <;> rfl

/-- One parser after the other gives an answer if both do. -/
theorem bind_eq_ok {α β σ : Type} {first : Parse σ α} {next : α → Parse σ β} {cursor : Cursor σ}
    {result : β × Cursor σ} :
    (first >>= next) cursor = .ok result ↔
      ∃ a middle, first cursor = .ok (a, middle) ∧ next a middle = .ok result := by
  have unfolded : (first >>= next) cursor =
      first cursor >>= fun between => next between.1 between.2 := rfl
  rw [unfolded, bind_eq_ok_iff]
  constructor
  · rintro ⟨⟨a, middle⟩, here, later⟩
    exact ⟨a, middle, here, later⟩
  · rintro ⟨a, middle, here, later⟩
    exact ⟨(a, middle), here, later⟩

theorem bind_of_ok {α β σ : Type} {first : Parse σ α} {next : α → Parse σ β}
    {cursor middle : Cursor σ} {a : α} (here : first cursor = .ok (a, middle)) :
    (first >>= next) cursor = next a middle := by
  have unfolded : (first >>= next) cursor =
      first cursor >>= fun between => next between.1 between.2 := rfl
  rw [unfolded, here]
  rfl

theorem unexpected_ne_ok {α σ : Type} {source : Reader} {cursor : Cursor σ}
    {result : α × Cursor σ} :
    unexpected source message cursor ≠ .ok result := by
  intro found
  unfold unexpected at found
  obtain ⟨got, -, found⟩ := bind_eq_ok_iff.1 found
  obtain ⟨location, -, found⟩ := bind_eq_ok_iff.1 found
  cases found

theorem currentKind_on (isKind : token.kind = kind) :
    currentKind (on depth (token :: tokens)) = .ok (kind, on depth (token :: tokens)) := by
  rw [← isKind]
  rfl

theorem advance_on (more : tokens ≠ []) :
    advance (on depth (token :: tokens)) = .ok ((), on depth tokens) := by
  cases tokens with
  | nil => exact absurd rfl more
  | cons next tokens => rfl

theorem expect_eq (cursor : Cursor (List Token)) :
    expect source kind message cursor =
      if cursor.current.kind = kind then
        advance cursor >>= fun moved => .ok (cursor.current, moved.2)
      else unexpected source message cursor := by
  have unfolded : expect source kind message cursor =
      (if cursor.current.kind = kind then
        (do advance; return cursor.current : Parse (List Token) Token)
        else unexpected source message) cursor := rfl
  rw [unfolded]
  split
  · rfl
  · rfl

theorem expect_on (isKind : token.kind = kind) (more : tokens ≠ []) :
    expect source kind message (on depth (token :: tokens)) = .ok (token, on depth tokens) := by
  rw [expect_eq, if_pos (by exact isKind), advance_on more]
  rfl

theorem expect_eq_ok (ends : Terminated tokens) (other : kind ≠ .eof)
    (found : expect source kind message (on depth tokens) = .ok (token, after)) :
    ∃ rest, tokens = token :: rest ∧ token.kind = kind ∧ after = on depth rest ∧
      Terminated rest := by
  obtain ⟨first, rest, rfl⟩ := List.exists_cons_of_ne_nil ends.ne_nil
  by_cases isKind : first.kind = kind
  · have later := ends.tail (isKind ▸ other)
    rw [expect_on isKind later.ne_nil] at found
    cases found
    exact ⟨rest, rfl, isKind, rfl, later⟩
  · rw [expect_eq, if_neg (by exact isKind)] at found
    exact absurd found unexpected_ne_ok

/-- What comes after a mark is read from the token after it. -/
theorem mark_bind_eq_ok {α : Type} {next : Token → Parse (List Token) α}
    {result : α × Cursor (List Token)} (ends : Terminated tokens)
    (mark : kind ≠ .eof ∧ kind ≠ .number ∧ kind ≠ .ident)
    (found : (expect source kind message >>= next) (on depth tokens) = .ok result) :
    ∃ token rest, tokens = token :: rest ∧ token.word source = .mark kind ∧ Terminated rest ∧
      next token (on depth rest) = .ok result := by
  obtain ⟨notEnd, notNumber, notName⟩ := mark
  obtain ⟨token, middle, expected, found⟩ := bind_eq_ok.1 found
  obtain ⟨rest, rfl, isKind, rfl, later⟩ := expect_eq_ok ends notEnd expected
  exact ⟨token, rest, rfl, Token.word_of_mark isKind notNumber notName, later, found⟩

/-- A token that was looked at is still the next one. -/
theorem expect_lookahead (next : Token) :
    expect source kind message { current := token, lookahead := some next, feed := tokens, depth } =
      expect source kind message (on depth (token :: next :: tokens)) := by
  rw [expect_eq, expect_eq]
  rfl

theorem expectName_lookahead (next : Token) :
    expectName source message
        { current := token, lookahead := some next, feed := tokens, depth } =
      expectName source message (on depth (token :: next :: tokens)) := by
  have unfolded (cursor : Cursor (List Token)) : expectName source message cursor =
      expect source .ident message cursor >>= fun found =>
        (Token.text source found.1 >>= fun text => .ok (text, found.2)) := rfl
  rw [unfolded, unfolded, expect_lookahead]

theorem expectName_on (isName : token.kind = .ident) (cut : token.text source = .ok name)
    (more : tokens ≠ []) :
    expectName source message (on depth (token :: tokens)) = .ok (name, on depth tokens) := by
  unfold expectName
  rw [bind_of_ok (expect_on isName more), cut]
  rfl

theorem expectName_eq_ok (ends : Terminated tokens)
    (found : expectName source message (on depth tokens) = .ok (name, after)) :
    ∃ token rest, tokens = token :: rest ∧ token.word source = .name name ∧ after = on depth rest ∧
      Terminated rest := by
  obtain ⟨token, middle, expected, found⟩ := bind_eq_ok.1 found
  obtain ⟨rest, rfl, isName, rfl, later⟩ := expect_eq_ok ends (by decide) expected
  cases cut : token.text source with
  | error stop =>
    rw [cut] at found
    cases found
  | ok text =>
    rw [cut] at found
    cases found
    exact ⟨token, rest, rfl, Token.word_of_name isName cut, rfl, later⟩

theorem expectName_bind_eq_ok {α : Type} {next : String → Parse (List Token) α}
    {result : α × Cursor (List Token)} (ends : Terminated tokens)
    (found : (expectName source message >>= next) (on depth tokens) = .ok result) :
    ∃ name token rest, tokens = token :: rest ∧ token.word source = .name name ∧
      Terminated rest ∧ next name (on depth rest) = .ok result := by
  obtain ⟨name, middle, expected, found⟩ := bind_eq_ok.1 found
  obtain ⟨token, rest, rfl, isName, rfl, later⟩ := expectName_eq_ok ends expected
  exact ⟨name, token, rest, rfl, isName, later, found⟩

theorem accept_on (isKind : token.kind = kind) (more : tokens ≠ []) :
    accept kind (on depth (token :: tokens)) = .ok (true, on depth tokens) := by
  have unfolded : accept kind (on depth (token :: tokens)) =
      (if token.kind = kind then (do advance; return true : Parse (List Token) Bool)
        else return false) (on depth (token :: tokens)) := rfl
  rw [unfolded, if_pos isKind, bind_of_ok (advance_on more)]
  rfl

theorem accept_on_other (other : (on depth tokens).current.kind ≠ kind) :
    accept kind (on depth tokens) = .ok (false, on depth tokens) := by
  have unfolded : accept kind (on depth tokens) =
      (if (on depth tokens).current.kind = kind then
        (do advance; return true : Parse (List Token) Bool)
        else return false) (on depth tokens) := rfl
  rw [unfolded, if_neg other]
  rfl

theorem accept_eq_ok {more : Bool} (ends : Terminated tokens) (other : kind ≠ .eof)
    (found : accept kind (on depth tokens) = .ok (more, after)) :
    (more = true ∧ ∃ token rest, tokens = token :: rest ∧ token.kind = kind ∧
      after = on depth rest ∧ Terminated rest) ∨
    (more = false ∧ (on depth tokens).current.kind ≠ kind ∧ after = on depth tokens) := by
  obtain ⟨first, rest, rfl⟩ := List.exists_cons_of_ne_nil ends.ne_nil
  by_cases isKind : first.kind = kind
  · have later := ends.tail (isKind ▸ other)
    rw [accept_on isKind later.ne_nil] at found
    cases found
    exact .inl ⟨rfl, first, rest, rfl, isKind, rfl, later⟩
  · have differ : (on depth (first :: rest)).current.kind ≠ kind := isKind
    rw [accept_on_other differ] at found
    cases found
    exact .inr ⟨rfl, differ, rfl⟩

end Steps

end Cursor

end FunMips
