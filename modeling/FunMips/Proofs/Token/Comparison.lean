import FunMips.Proofs.Except
import FunMips.Token.Cursor

/-!
# Parsers on two feeds

A parser that reads two feeds with the same tokens keeps in step on both: it asks for a token of
the one exactly when it asks for a token of the other, and gives the same answers (`InStep`). What
the same tokens are, and what answers count as the same, is left open (`Comparison`). The first
feed may also break off on its own, and then its parser does so too, at once. Nothing is asked of
the feeds after an end token.
-/

namespace FunMips

open Cursor

/-- Answers that are the same, ends that are, or the first breaks off. -/
inductive SameAnswer {α β : Type} (Breaks : Stop → Prop) (Ends : Stop → Stop → Prop)
    (Same : α → β → Prop) : Except Stop α → Except Stop β → Prop
  | answer {a : α} {b : β} (same : Same a b) : SameAnswer Breaks Ends Same (.ok a) (.ok b)
  | stop {first second : Stop} (ends : Ends first second) :
      SameAnswer Breaks Ends Same (.error first) (.error second)
  | breaks {first : Stop} {second : Except Stop β} (breaks : Breaks first) :
      SameAnswer Breaks Ends Same (.error first) second

namespace SameAnswer

variable {α β γ δ : Type} {Breaks : Stop → Prop} {Ends : Stop → Stop → Prop}

theorem refl (reflexive : ∀ stop, Ends stop stop) (answer : Except Stop α) :
    SameAnswer Breaks Ends Eq answer answer := by
  cases answer with
  | ok a => exact .answer rfl
  | error stop => exact .stop (reflexive stop)

theorem bind {Same : α → β → Prop} {Result : γ → δ → Prop} {first : Except Stop α}
    {second : Except Stop β} {next : α → Except Stop γ} {other : β → Except Stop δ}
    (here : SameAnswer Breaks Ends Same first second)
    (later : ∀ a b, Same a b → SameAnswer Breaks Ends Result (next a) (other b)) :
    SameAnswer Breaks Ends Result (first >>= next) (second >>= other) := by
  cases here with
  | answer same => exact later _ _ same
  | stop ends => exact .stop ends
  | breaks breaks => exact .breaks breaks

theorem imp {Same Weaker : α → β → Prop} {Others : Stop → Stop → Prop} {first : Except Stop α}
    {second : Except Stop β} (same : SameAnswer Breaks Ends Same first second)
    (weaker : ∀ a b, Same a b → Weaker a b)
    (others : ∀ stop twin, second = .error twin → Ends stop twin → Others stop twin) :
    SameAnswer Breaks Others Weaker first second := by
  cases same with
  | answer same => exact .answer (weaker _ _ same)
  | stop ends => exact .stop (others _ _ rfl ends)
  | breaks breaks => exact .breaks breaks

theorem eq {Same : α → α → Prop} {first second : Except Stop α}
    (same : SameAnswer (fun _ => False) Ends Same first second)
    (answers : ∀ a b, Same a b → a = b) (stops : ∀ stop twin, Ends stop twin → stop = twin) :
    first = second := by
  cases same with
  | answer same => exact congrArg Except.ok (answers _ _ same)
  | stop ends => exact congrArg Except.error (stops _ _ ends)
  | breaks breaks => exact breaks.elim

end SameAnswer

/-- Reports that point at these places are the same. -/
structure SamePlace (Ends : Stop → Stop → Prop) (place other : Location) : Prop where
  unexpectedToken : ∀ message got,
    Ends (.refused (.unexpectedToken message got place))
      (.refused (.unexpectedToken message got other))
  nestingTooDeep : ∀ limit,
    Ends (.refused (.nestingTooDeep limit place)) (.refused (.nestingTooDeep limit other))

/-- Tokens that are the same, with feeds behind them that are, unless the source ends there. -/
inductive Handed {σ τ : Type} (Tokens : Token → Token → Prop) (Feeds : σ → τ → Prop) :
    Option Token × σ → Option Token × τ → Prop
  | token {token copy : Token} {rest : σ} {others : τ} (same : Tokens token copy)
      (later : token.kind ≠ .eof → Feeds rest others) :
      Handed Tokens Feeds (some token, rest) (some copy, others)

/-- Within its bounds the count of open levels goes up and down by one. -/
structure Reader.Counts (reader : Reader) : Prop where
  enter : ∀ depth < maxNesting, reader.enter depth = .ok (depth + 1)
  leave : ∀ depth < maxNesting, reader.leave (depth + 1) = .ok depth

theorem Reader.Counts.ofText (source : Text) : (Reader.ofText source).Counts :=
  ⟨fun _ _ => rfl, fun _ _ => rfl⟩

/-- What makes two feeds, each with a reader of its source, the same for a parser. -/
structure Comparison (σ τ : Type) [TokenFeed σ] [TokenFeed τ] where
  source : Reader
  /-- Source of the second feed. -/
  other : Reader
  counts : source.Counts ∧ other.Counts
  /-- Tokens that are the same. -/
  Tokens : Token → Token → Prop
  /-- Feeds that still hand out the same tokens. -/
  Feeds : σ → τ → Prop
  /-- Ways in which the first feed may break off. -/
  Breaks : Stop → Prop
  /-- Ends that are the same. -/
  Ends : Stop → Stop → Prop
  next : ∀ {feed : σ} {twin : τ}, Feeds feed twin →
    SameAnswer Breaks Ends (Handed Tokens Feeds) (TokenFeed.next feed) (TokenFeed.next twin)
  kind_eq : ∀ {token copy : Token}, Tokens token copy → token.kind = copy.kind
  value_eq : ∀ {token copy : Token}, Tokens token copy → token.value = copy.value
  text : ∀ {token copy : Token}, Tokens token copy →
    SameAnswer Breaks Ends Eq (token.text source.text) (copy.text other.text)
  locate : ∀ {token copy : Token}, Tokens token copy →
    SameAnswer Breaks Ends (SamePlace Ends) (source.locate token.start) (other.locate copy.start)
  endless : Ends .endless .endless

namespace Comparison

variable {σ τ : Type} [TokenFeed σ] [TokenFeed τ]

/-- The comparison of feeds that hand out equal tokens of one source, each with a property. -/
def ofEq (source : Text) (Proper : Token → Prop) (Feeds : σ → τ → Prop) (Breaks : Stop → Prop)
    (next : ∀ {feed : σ} {twin : τ}, Feeds feed twin →
      (∃ stop, TokenFeed.next feed = .error stop ∧ Breaks stop) ∨
        ∃ token rest others, TokenFeed.next feed = .ok (some token, rest) ∧
          TokenFeed.next twin = .ok (some token, others) ∧ Proper token ∧
          (token.kind ≠ .eof → Feeds rest others)) : Comparison σ τ where
  source
  other := source
  counts := ⟨.ofText source, .ofText source⟩
  Tokens token copy := token = copy ∧ Proper token
  Feeds
  Breaks
  Ends := Eq
  next similar := by
    obtain ⟨stop, found, breaks⟩ | ⟨token, rest, others, found, same, proper, later⟩ := next similar
    · rw [found]
      exact .breaks breaks
    · rw [found, same]
      exact .answer (.token ⟨rfl, proper⟩ later)
  kind_eq := fun ⟨equal, _⟩ => congrArg Token.kind equal
  value_eq := fun ⟨equal, _⟩ => congrArg Token.value equal
  text := fun ⟨equal, _⟩ => equal ▸ .refl (fun _ => rfl) _
  locate {token copy} same := by
    rw [← same.1]
    show SameAnswer Breaks Eq (SamePlace Eq) (Location.locate source token.start)
      (Location.locate source token.start)
    cases Location.locate source token.start with
    | ok place => exact .answer ⟨fun _ _ => rfl, fun _ => rfl⟩
    | error stop => exact .stop rfl
  endless := rfl

/-- Cursors on the same token, with as many levels open, that have not looked ahead. -/
structure Aligned (c : Comparison σ τ) (first : Cursor σ) (second : Cursor τ) : Prop where
  current : c.Tokens first.current second.current
  lookahead : first.lookahead = none ∧ second.lookahead = none
  feeds : first.current.kind ≠ .eof → c.Feeds first.feed second.feed
  depth : second.depth = first.depth

/-- What parsers that keep in step leave: the same results and aligned cursors, of which either
both have moved or neither has. Levels that were opened are closed again. -/
structure Left {α β : Type} (c : Comparison σ τ) (Same : α → β → Prop) (first : Cursor σ)
    (second : Cursor τ) (left : α × Cursor σ) (right : β × Cursor τ) : Prop where
  same : Same left.1 right.1
  aligned : c.Aligned left.2 right.2
  moved : left.2.remaining < first.remaining ∧ right.2.remaining < second.remaining ∨
    left.2.remaining = first.remaining ∧ right.2.remaining = second.remaining
  depth : left.2.depth = first.depth

/-- The parsers keep in step from these cursors on. -/
abbrev Agree {α β : Type} (c : Comparison σ τ) (Same : α → β → Prop) (first : Cursor σ)
    (second : Cursor τ) (answer : Except Stop (α × Cursor σ)) (copy : Except Stop (β × Cursor τ)) :
    Prop :=
  SameAnswer c.Breaks c.Ends (c.Left Same first second) answer copy

/-- The parsers keep in step wherever their cursors are aligned. -/
def InStep {α β : Type} (c : Comparison σ τ) (Same : α → β → Prop) (parser : Parse σ α)
    (copy : Parse τ β) : Prop :=
  ∀ first second, c.Aligned first second →
    c.Agree Same first second (parser first) (copy second)

variable {c : Comparison σ τ} {first : Cursor σ} {second : Cursor τ} {kind : Kind}
variable {message : String}

namespace Aligned

theorem kind_eq (aligned : c.Aligned first second) : second.current.kind = first.current.kind :=
  (c.kind_eq aligned.current).symm

theorem remaining_eq (aligned : c.Aligned first second) :
    first.remaining = TokenFeed.remaining first.feed ∧
      second.remaining = TokenFeed.remaining second.feed := by
  simp [remaining, aligned.lookahead]

end Aligned

section Results

variable {α β γ δ : Type} {Same : α → β → Prop} {Result : γ → δ → Prop}

theorem Agree.stay {a : α} {b : β} (same : Same a b) (aligned : c.Aligned first second) :
    c.Agree Same first second (.ok (a, first)) (.ok (b, second)) :=
  .answer ⟨same, aligned, .inr ⟨rfl, rfl⟩, rfl⟩

theorem Agree.bind {answer : Except Stop (α × Cursor σ)} {copy : Except Stop (β × Cursor τ)}
    {next : α × Cursor σ → Except Stop (γ × Cursor σ)}
    {other : β × Cursor τ → Except Stop (δ × Cursor τ)}
    (here : c.Agree Same first second answer copy)
    (later : ∀ left right, c.Left Same first second left right →
      c.Agree Result left.2 right.2 (next left) (other right)) :
    c.Agree Result first second (answer >>= next) (copy >>= other) := by
  refine SameAnswer.bind here fun left right between => ?_
  have onward := later left right between
  generalize next left = x at onward
  generalize other right = y at onward
  cases onward with
  | answer after =>
    refine .answer ⟨after.same, after.aligned, ?_, after.depth.trans between.depth⟩
    have before := between.moved
    have after := after.moved
    omega
  | stop ends => exact .stop ends
  | breaks breaks => exact .breaks breaks

theorem InStep.pure {a : α} {b : β} (same : Same a b) :
    c.InStep Same (Pure.pure a) (Pure.pure b) :=
  fun _ _ aligned => .stay same aligned

theorem InStep.bind {parser : Parse σ α} {copy : Parse τ β} {next : α → Parse σ γ}
    {other : β → Parse τ δ} (here : c.InStep Same parser copy)
    (later : ∀ a b, Same a b → c.InStep Result (next a) (other b)) :
    c.InStep Result (parser >>= next) (copy >>= other) := by
  intro first second aligned
  exact (here first second aligned).bind fun left right between =>
    later left.1 right.1 between.same left.2 right.2 between.aligned

theorem InStep.andThen {parser : Parse σ α} {copy : Parse τ α} {next : α → Parse σ γ}
    {other : α → Parse τ δ} (here : c.InStep Eq parser copy)
    (later : ∀ a, c.InStep Result (next a) (other a)) :
    c.InStep Result (parser >>= next) (copy >>= other) :=
  here.bind fun a _ equal => equal ▸ later a

/-- The kind of the current token is the same for both. -/
theorem InStep.onKind {parser : Kind → Parse σ α} {copy : Kind → Parse τ β}
    (each : ∀ first second, c.Aligned first second →
      c.Agree Same first second (parser first.current.kind first)
        (copy first.current.kind second)) :
    c.InStep Same (currentKind >>= parser) (currentKind >>= copy) := by
  intro first second aligned
  show c.Agree Same first second (parser first.current.kind first)
    (copy second.current.kind second)
  rw [aligned.kind_eq]
  exact each first second aligned

end Results

/-! ## Steps -/

/-- What is done with the next tokens of both feeds. -/
theorem ask {α β : Type} {Same : α → β → Prop} {feed : σ} {twin : τ}
    {next : Option Token × σ → Except Stop α} {other : Option Token × τ → Except Stop β}
    (feeds : c.Feeds feed twin)
    (later : ∀ token copy rest others, TokenFeed.next feed = .ok (some token, rest) →
      TokenFeed.next twin = .ok (some copy, others) → c.Tokens token copy →
      (token.kind ≠ .eof → c.Feeds rest others) →
      SameAnswer c.Breaks c.Ends Same (next (some token, rest)) (other (some copy, others))) :
    SameAnswer c.Breaks c.Ends Same (TokenFeed.next feed >>= next)
      (TokenFeed.next twin >>= other) := by
  have handed := c.next feeds
  generalize asked : TokenFeed.next feed = found at handed ⊢
  generalize copied : TokenFeed.next twin = copy at handed ⊢
  cases handed with
  | answer same =>
    cases same with
    | token same onward => exact later _ _ _ _ asked copied same onward
  | stop ends => exact .stop ends
  | breaks breaks => exact .breaks breaks

theorem agree_advance (aligned : c.Aligned first second) (more : first.current.kind ≠ .eof) :
    c.Agree Eq first second (advance first) (advance second) := by
  have unfolded : advance first = TokenFeed.next first.feed >>= fun found =>
      .ok ((), { first with current := found.1.getD first.current, feed := found.2 }) := by
    unfold advance
    rw [aligned.lookahead.1]
    rfl
  have copy : advance second = TokenFeed.next second.feed >>= fun found =>
      .ok ((), { second with current := found.1.getD second.current, feed := found.2 }) := by
    unfold advance
    rw [aligned.lookahead.2]
    rfl
  rw [unfolded, copy]
  refine c.ask (aligned.feeds more) fun token twin rest others found same tokens later => ?_
  have next : c.Aligned { first with current := token, feed := rest }
      { second with current := twin, feed := others } :=
    ⟨tokens, aligned.lookahead, later, aligned.depth⟩
  refine .answer ⟨rfl, next, .inl ?_, rfl⟩
  rw [aligned.remaining_eq.1, aligned.remaining_eq.2]
  exact ⟨next.remaining_eq.1 ▸ TokenFeed.remaining_lt found,
    next.remaining_eq.2 ▸ TokenFeed.remaining_lt same⟩

theorem inStep_accept (other : kind ≠ .eof) : c.InStep Eq (accept kind) (accept kind) := by
  refine .onKind fun first second aligned => ?_
  by_cases isKind : first.current.kind = kind
  · rw [if_pos isKind, if_pos isKind]
    exact (agree_advance aligned (isKind ▸ other)).bind fun left right between =>
      .stay rfl between.aligned
  · rw [if_neg isKind, if_neg isKind]
    exact .stay rfl aligned

theorem describe {token copy : Token} (same : c.Tokens token copy) :
    SameAnswer c.Breaks c.Ends Eq (Token.describe c.source.text (some token))
      (Token.describe c.other.text (some copy)) := by
  unfold Token.describe
  dsimp only
  rw [c.kind_eq same]
  split
  · exact .answer rfl
  · exact c.text same

theorem inStep_unexpected {α β : Type} {Same : α → β → Prop} :
    c.InStep Same (unexpected c.source message) (unexpected c.other message) := by
  intro first second aligned
  refine (c.describe aligned.current).bind fun got _ equal => ?_
  subst equal
  refine (c.locate aligned.current).bind fun place other same => ?_
  exact .stop (same.unexpectedToken message got)

theorem inStep_expect (other : kind ≠ .eof) :
    c.InStep c.Tokens (expect c.source kind message) (expect c.other kind message) := by
  intro first second aligned
  show c.Agree c.Tokens first second
    ((if first.current.kind = kind then (do advance; return first.current : Parse σ Token)
      else unexpected c.source message) first)
    ((if second.current.kind = kind then (do advance; return second.current : Parse τ Token)
      else unexpected c.other message) second)
  rw [aligned.kind_eq]
  by_cases isKind : first.current.kind = kind
  · rw [if_pos isKind, if_pos isKind]
    exact (agree_advance aligned (isKind ▸ other)).bind fun left right between =>
      .stay aligned.current between.aligned
  · rw [if_neg isKind, if_neg isKind]
    exact inStep_unexpected first second aligned

/-- The text of the same tokens. -/
theorem inStep_text {token copy : Token} (same : c.Tokens token copy) :
    c.InStep Eq (Token.text c.source.text token : Except Stop String)
      (Token.text c.other.text copy : Except Stop String) := by
  intro first second aligned
  exact (c.text same).bind fun text _ equal => Agree.stay equal aligned

theorem inStep_expectName :
    c.InStep Eq (expectName c.source message) (expectName c.other message) :=
  (inStep_expect (by decide)).bind fun _ _ same => inStep_text same

/-! ## Looking ahead -/

/-- Cursors that have looked at the token after the current one, and how moving there leaves
them. -/
structure Ahead (c : Comparison σ τ) (first : Cursor σ) (second : Cursor τ) (ahead : Cursor σ)
    (beyond : Cursor τ) (token copy : Token) : Prop where
  current : ahead.current = first.current ∧ beyond.current = second.current
  lookahead : ahead.lookahead = some token ∧ beyond.lookahead = some copy
  left : c.Left Eq first second ((), { ahead with current := token, lookahead := none })
    ((), { beyond with current := copy, lookahead := none })

theorem agree_peekKind {α β : Type} {Same : α → β → Prop} {next : Kind → Parse σ α}
    {other : Kind → Parse τ β} (aligned : c.Aligned first second)
    (more : first.current.kind ≠ .eof)
    (later : ∀ ahead beyond token copy, c.Ahead first second ahead beyond token copy →
      c.Agree Same first second (next token.kind ahead) (other token.kind beyond)) :
    c.Agree Same first second ((peekKind >>= next) first) ((peekKind >>= other) second) := by
  have unfolded : (peekKind >>= next) first = TokenFeed.next first.feed >>= fun found =>
      next ((found.1.map Token.kind).getD .eof)
        { first with lookahead := found.1, feed := found.2 } := by
    show peekKind first >>= _ = _
    unfold peekKind
    rw [aligned.lookahead.1]
    cases TokenFeed.next first.feed <;> rfl
  have copied : (peekKind >>= other) second = TokenFeed.next second.feed >>= fun found =>
      other ((found.1.map Token.kind).getD .eof)
        { second with lookahead := found.1, feed := found.2 } := by
    show peekKind second >>= _ = _
    unfold peekKind
    rw [aligned.lookahead.2]
    cases TokenFeed.next second.feed <;> rfl
  rw [unfolded, copied]
  refine c.ask (aligned.feeds more) fun token copy rest others found same tokens onward => ?_
  show c.Agree Same first second (next token.kind _) (other copy.kind _)
  rw [← c.kind_eq tokens]
  refine later _ _ token copy ⟨⟨rfl, rfl⟩, ⟨rfl, rfl⟩, rfl,
    ⟨tokens, ⟨rfl, rfl⟩, onward, aligned.depth⟩, .inl ?_, rfl⟩
  rw [aligned.remaining_eq.1, aligned.remaining_eq.2]
  exact ⟨TokenFeed.remaining_lt found, TokenFeed.remaining_lt same⟩

theorem expectName_peeked {source : Reader} {cursor : Cursor σ} {token : Token}
    (isName : cursor.current.kind = .ident) (peeked : cursor.lookahead = some token) :
    expectName source message cursor = cursor.current.text source.text >>= fun text =>
      .ok (text, { cursor with current := token, lookahead := none }) := by
  have unfolded : expectName source message cursor =
      (if cursor.current.kind = .ident then (do advance; return cursor.current : Parse σ Token)
        else unexpected source message) cursor >>= fun found =>
          (found.1.text source.text >>= fun text => .ok (text, found.2)) := rfl
  have advanced : advance cursor =
      .ok ((), { cursor with current := token, lookahead := none }) := by
    unfold advance
    rw [peeked]
  rw [unfolded, if_pos isName]
  show (advance cursor >>= fun found => _) >>= _ = _
  rw [advanced]
  rfl

/-- A name is read the same after a look at the token behind it. -/
theorem Ahead.agree_expectName {ahead : Cursor σ} {beyond : Cursor τ} {token copy : Token}
    (looked : c.Ahead first second ahead beyond token copy) (aligned : c.Aligned first second)
    (isName : first.current.kind = .ident) :
    c.Agree Eq first second (expectName c.source message ahead)
      (expectName c.other message beyond) := by
  have isCopy : beyond.current.kind = .ident := by
    rw [looked.current.2, aligned.kind_eq, isName]
  rw [expectName_peeked (by rw [looked.current.1, isName]) looked.lookahead.1,
    expectName_peeked isCopy looked.lookahead.2, looked.current.1, looked.current.2]
  refine (c.text aligned.current).bind fun text _ equal => ?_
  exact .answer ⟨equal, looked.left.aligned, looked.left.moved, looked.left.depth⟩

/-! ## Loops -/

section Loops

variable {α : Type} {item : Parse σ α} {twin : Parse τ α}

/-- An item is counted as progress on both sides or on neither. -/
theorem agree_progress {β : Type} {Same : β → β → Prop} {origin : Cursor σ} {start : Cursor τ}
    {next : Except Stop (β × Cursor σ)} {copy : Except Stop (β × Cursor τ)}
    (moved : first.remaining < origin.remaining ↔ second.remaining < start.remaining)
    (later : first.remaining < origin.remaining → c.Agree Same first second next copy) :
    c.Agree Same first second
      (if first.remaining < origin.remaining then next else .error .endless)
      (if second.remaining < start.remaining then copy else .error .endless) := by
  by_cases fewer : first.remaining < origin.remaining
  · rw [if_pos fewer, if_pos (moved.1 fewer)]
    exact later fewer
  · rw [if_neg fewer, if_neg (mt moved.2 fewer)]
    exact .stop c.endless

theorem inStep_commaSeparated (each : c.InStep Eq item twin) :
    c.InStep Eq (commaSeparated item) (commaSeparated twin) := by
  intro first second aligned
  -- the first side's tokens are counted; the second makes progress when the first does
  induction size : first.remaining using Nat.strongRecOn generalizing first second with
  | ind bound ih =>
    subst size
    rw [commaSeparated, commaSeparated]
    refine (each first second aligned).bind fun ⟨a, left⟩ ⟨_, right⟩ item => ?_
    obtain rfl := item.same
    refine (inStep_accept (by decide) left right item.aligned).bind
      fun ⟨more, left'⟩ ⟨_, right'⟩ comma => ?_
    obtain rfl := comma.same
    have itemMoved := item.moved
    have commaMoved := comma.moved
    dsimp only at itemMoved commaMoved ⊢
    cases more with
    | false => exact .stay rfl comma.aligned
    | true =>
      refine agree_progress (by omega) fun fewer => ?_
      refine (ih _ fewer left' right' comma.aligned rfl).bind
        fun ⟨others, _⟩ ⟨_, _⟩ rest => ?_
      obtain rfl := rest.same
      exact .stay rfl rest.aligned

theorem inStep_untilEnd (each : c.InStep Eq item twin) :
    c.InStep Eq (untilEnd item) (untilEnd twin) := by
  intro first second aligned
  induction size : first.remaining using Nat.strongRecOn generalizing first second with
  | ind bound ih =>
    subst size
    rw [untilEnd, untilEnd, aligned.kind_eq]
    by_cases isEnd : first.current.kind = .eof
    · rw [if_pos isEnd, if_pos isEnd]
      exact .stay rfl aligned
    · rw [if_neg isEnd, if_neg isEnd]
      refine (each first second aligned).bind fun ⟨a, left⟩ ⟨_, right⟩ item => ?_
      obtain rfl := item.same
      have moved := item.moved
      dsimp only at moved ⊢
      refine agree_progress (by omega) fun fewer => ?_
      refine (ih _ fewer left right item.aligned rfl).bind fun ⟨others, _⟩ ⟨_, _⟩ rest => ?_
      obtain rfl := rest.same
      exact .stay rfl rest.aligned

/-- Items are read up to the end token, and no further. -/
theorem current_of_untilEnd {items : List α} {after : Cursor σ}
    (found : untilEnd item first = .ok (items, after)) : after.current.kind = .eof := by
  induction size : first.remaining using Nat.strongRecOn generalizing first items with
  | ind bound ih =>
    subst size
    rw [untilEnd] at found
    split at found
    · next isEnd =>
      cases found
      exact isEnd
    · obtain ⟨⟨a, between⟩, -, found⟩ := bind_eq_ok_iff.1 found
      dsimp only at found
      split at found
      · next fewer =>
        obtain ⟨⟨others, last⟩, later, equal⟩ := bind_eq_ok_iff.1 found
        cases equal
        exact ih _ fewer later rfl
      · cases found

end Loops

end Comparison

end FunMips
