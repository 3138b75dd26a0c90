import FunMips.Proofs.Except
import FunMips.Token.Cursor

/-!
# Counting the requests of a parser

When a list of tokens has run dry, its last token stays the current one, and a parser may read it
again. A parser on a metered list can ask for tokens only so many times, and is cut off when it
asks once more; so if its answer does not change with more requests to spare, it has ended after
finitely many of them. `Settles` says that an answer on a list is also the answer on the metered
list, from some number of requests on, and that it is no failure of the parser itself.

A loop settles because each of its rounds leaves fewer tokens. The one exception is a dry list
whose last token is a whole operand, a number or a name (`Moves`): that may be read for ever.
-/

namespace FunMips

open Cursor

/-- The source is refused, or a text is cut where it cannot be. The other ways to stop are failures
of the parser itself. -/
def Stop.Proper : Stop → Prop
  | refused _ | splitCharacter => True
  | lookaheadFull | endless => False

/-- The kind of a token that is an expression on its own. -/
def Kind.IsOperand (kind : Kind) : Prop := kind = .number ∨ kind = .ident

/-- Tokens, and how often they may still be asked for. -/
structure Metered where
  tokens : List Token
  requests : Nat

/-- The next token of a metered list. To ask once too often counts as never to end. -/
def nextOfMetered : Metered → Except Stop (Option Token × Metered)
  | ⟨_, 0⟩ => .error .endless
  | ⟨tokens, requests + 1⟩ => .ok (tokens.head?, ⟨tokens.tail, requests⟩)

-- What remains is counted in requests, whether a token meets them or not. So a round of a loop
-- counts as progress if it asks for a token, and a loop that does not end uses up all requests.
instance : TokenFeed Metered where
  next := nextOfMetered
  remaining := Metered.requests
  remaining_lt {feed rest token} h := by
    obtain ⟨tokens, requests⟩ := feed
    cases requests with
    | zero => cases h
    | succ requests =>
      obtain ⟨-, rfl⟩ := Prod.mk.inj (Except.ok.inj h)
      exact Nat.lt_succ_self requests

namespace Cursor

/-- The tokens from the current one on. -/
def stream (cursor : Cursor (List Token)) : List Token :=
  cursor.current :: (cursor.lookahead.toList ++ cursor.feed)

/-- The same place in a metered list. -/
def metered (cursor : Cursor (List Token)) (requests : Nat) : Cursor Metered :=
  { cursor with feed := ⟨cursor.feed, requests⟩ }

variable {start between after : Cursor (List Token)}

theorem length_stream (cursor : Cursor (List Token)) :
    cursor.stream.length = cursor.remaining + 1 := by
  have count : cursor.remaining = cursor.feed.length + if cursor.lookahead.isSome then 1 else 0 :=
    rfl
  rw [count, stream]
  cases cursor.lookahead with
  | none => simp
  | some token => simp [Nat.add_comm]

theorem remaining_le (rest : after.stream <:+ start.stream) :
    after.remaining ≤ start.remaining := by
  have shorter := rest.length_le
  rw [length_stream, length_stream] at shorter
  exact Nat.le_of_succ_le_succ shorter

/-- Where nothing has been read, the cursor is still on the same token. -/
theorem current_eq (rest : after.stream <:+ start.stream)
    (still : start.remaining ≤ after.remaining) : after.current = start.current := by
  have equal : after.stream = start.stream := by
    refine rest.eq_of_length_le ?_
    rw [length_stream, length_stream]
    exact Nat.succ_le_succ still
  exact (List.cons.inj equal).1

/-! ## How far a parser goes -/

/-- Nothing is known but that the cursor does not go back. -/
def Anywhere (_start _after : Cursor (List Token)) : Prop := True

/-- Tokens are read if there are any after the current one. -/
def Passes (start after : Cursor (List Token)) : Prop :=
  after.remaining < start.remaining ∨ start.remaining = 0

/-- Tokens are read, unless the list is dry and its last token is an operand. -/
def Moves (start after : Cursor (List Token)) : Prop :=
  after.remaining < start.remaining ∨ start.remaining = 0 ∧ start.current.kind.IsOperand

theorem Passes.moves (passes : Passes start after) (operand : start.current.kind.IsOperand) :
    Moves start after :=
  passes.imp_right fun dry => ⟨dry, operand⟩

theorem Moves.later (moves : Moves start between) (rest : after.stream <:+ between.stream) :
    Moves start after :=
  moves.imp_left fun fewer => Nat.lt_of_le_of_lt (remaining_le rest) fewer

/-- On a dry list the token that has been passed is still there for the next parser. -/
theorem Passes.before_moves (passes : Passes start between)
    (reached : between.stream <:+ start.stream) (moves : Moves between after)
    (rest : after.stream <:+ between.stream) : Moves start after := by
  obtain fewer | dry := passes
  · exact .inl (Nat.lt_of_le_of_lt (remaining_le rest) fewer)
  · have still : between.remaining = 0 := Nat.le_zero.1 (dry ▸ remaining_le reached)
    obtain fewer | ⟨-, operand⟩ := moves
    · rw [still] at fewer
      exact absurd fewer (Nat.not_lt_zero _)
    · rw [current_eq reached (Nat.le_of_eq (dry.trans still.symm))] at operand
      exact .inr ⟨dry, operand⟩

/-- The last token is no operand. -/
def Anchored (cursor : Cursor (List Token)) : Prop :=
  ∀ last ∈ cursor.stream.getLast?, ¬last.kind.IsOperand

theorem Anchored.later (anchored : start.Anchored) (rest : after.stream <:+ start.stream) :
    after.Anchored := by
  obtain ⟨read, equal⟩ := rest
  intro last isLast
  refine anchored last ?_
  rw [← equal, List.getLast?_append, isLast]
  rfl

/-- A last token that is no operand is not read for ever. -/
theorem Anchored.remaining_lt (anchored : start.Anchored) (moves : Moves start after) :
    after.remaining < start.remaining := by
  obtain fewer | ⟨dry, operand⟩ := moves
  · exact fewer
  · have single : start.stream.length = 1 := by rw [length_stream, dry]
    obtain ⟨token, equal⟩ := List.length_eq_one_iff.1 single
    have isCurrent : start.current = token := (List.cons.inj equal).1
    refine absurd operand (anchored start.current ?_)
    rw [equal, isCurrent]
    rfl

/-- The cursor `after` is reached with this many requests, among them one for each token that has
left the feed. -/
structure Reached (start after : Cursor (List Token)) (requests : Nat) : Prop where
  rest : after.stream <:+ start.stream
  spent : start.feed.length ≤ after.feed.length + requests

theorem Reached.trans {first second : Nat} (here : Reached start between first)
    (later : Reached between after second) : Reached start after (second + first) where
  rest := later.rest.trans here.rest
  spent := by
    have := here.spent
    have := later.spent
    omega

/-- Without a token of lookahead at hand there is no progress without a request. -/
theorem Reached.pos {requests : Nat} (reached : Reached start after requests)
    (ready : start.lookahead = none) (fewer : after.remaining < start.remaining) :
    0 < requests := by
  have left : start.remaining = start.feed.length := by simp [remaining, ready, TokenFeed.remaining]
  have spent := reached.spent
  have kept : after.feed.length ≤ after.remaining := Nat.le_add_right _ _
  omega

end Cursor

/-! ## Answers that settle -/

/-- The answer comes after some number of requests, and requests to spare do not change it. -/
inductive Settles {α : Type} (start : Cursor (List Token))
    (Left : α → Cursor (List Token) → Prop) :
    Except Stop (α × Cursor (List Token)) → (Nat → Except Stop (α × Cursor Metered)) → Prop
  | answer {a : α} {after : Cursor (List Token)} {metered : Nat → Except Stop (α × Cursor Metered)}
      (requests : Nat) (ready : after.lookahead = none) (reached : Reached start after requests)
      (left : Left a after)
      (same : ∀ spare, metered (spare + requests) = .ok (a, after.metered spare)) :
      Settles start Left (.ok (a, after)) metered
  | stop {stop : Stop} {metered : Nat → Except Stop (α × Cursor Metered)} (requests : Nat)
      (proper : stop.Proper) (same : ∀ spare, metered (spare + requests) = .error stop) :
      Settles start Left (.error stop) metered

namespace Settles

variable {α β γ : Type} {start between : Cursor (List Token)}
variable {Left : α → Cursor (List Token) → Prop} {Result : β → Cursor (List Token) → Prop}

/-- The cursor stays where it is. -/
theorem stay {a : α} (ready : start.lookahead = none) (left : Left a start) :
    Settles start Left (.ok (a, start)) fun spare => .ok (a, start.metered spare) :=
  .answer 0 ready ⟨List.suffix_rfl, Nat.le_refl _⟩ left fun _ => rfl

/-- What settles from a cursor on settles also from an earlier one. -/
theorem after {answer : Except Stop (α × Cursor (List Token))}
    {metered whole : Nat → Except Stop (α × Cursor Metered)} {requests : Nat}
    (reached : Reached start between requests) (later : Settles between Left answer metered)
    (same : ∀ spare, whole (spare + requests) = metered spare) :
    Settles start Left answer whole := by
  cases later with
  | answer more ready onward left found =>
    refine .answer (more + requests) ready (reached.trans onward) left fun spare => ?_
    rw [← Nat.add_assoc, same, found]
  | stop more proper found =>
    refine .stop (more + requests) proper fun spare => ?_
    rw [← Nat.add_assoc, same, found]

theorem bind {answer : Except Stop (α × Cursor (List Token))}
    {metered : Nat → Except Stop (α × Cursor Metered)}
    {next : α × Cursor (List Token) → Except Stop (β × Cursor (List Token))}
    {twin : Nat → α × Cursor Metered → Except Stop (β × Cursor Metered)}
    (here : Settles start Left answer metered)
    (later : ∀ a after requests, after.lookahead = none → Reached start after requests →
      Left a after → Settles after Result (next (a, after)) fun spare =>
        twin (spare + requests) (a, after.metered spare)) :
    Settles start Result (answer >>= next) fun n => metered n >>= twin n := by
  cases here with
  | answer requests ready reached left same =>
    refine .after reached (later _ _ requests ready reached left) fun spare => ?_
    rw [same, ok_bind]
  | stop requests proper same =>
    refine .stop requests proper fun spare => ?_
    rw [same]
    rfl

/-- A step that asks for no token is the same on both sides. -/
theorem query {answer : Except Stop γ} {next : γ → Except Stop (β × Cursor (List Token))}
    {twin : Nat → γ → Except Stop (β × Cursor Metered)}
    (proper : ∀ stop, answer = .error stop → stop.Proper)
    (later : ∀ c, Settles start Result (next c) fun spare => twin spare c) :
    Settles start Result (answer >>= next) fun n => answer >>= twin n := by
  cases answer with
  | ok c => exact later c
  | error stop => exact .stop 0 (proper stop rfl) fun _ => rfl

theorem imp {Weaker : α → Cursor (List Token) → Prop}
    {answer : Except Stop (α × Cursor (List Token))}
    {metered : Nat → Except Stop (α × Cursor Metered)} (settles : Settles start Left answer metered)
    (weaker : ∀ a after, after.stream <:+ start.stream → Left a after → Weaker a after) :
    Settles start Weaker answer metered := by
  cases settles with
  | answer requests ready reached left same =>
    exact .answer requests ready reached (weaker _ _ reached.rest left) same
  | stop requests proper same => exact .stop requests proper same

/-- The result is the same for every number of requests from some number on. -/
theorem ends {answer : Except Stop (α × Cursor (List Token))}
    {metered : Nat → Except Stop (α × Cursor Metered)} (settles : Settles start Left answer metered)
    (result : α → β) :
    (∀ stop, (answer >>= fun read => .ok (result read.1)) = .error stop → stop.Proper) ∧
      ∃ requests, ∀ spare, (metered (spare + requests) >>= fun read => .ok (result read.1)) =
        answer >>= fun read => .ok (result read.1) := by
  cases settles with
  | answer requests _ _ _ same =>
    refine ⟨fun stop failed => ?_, requests, fun spare => ?_⟩
    · cases failed
    · rw [same]
      rfl
  | stop requests proper same =>
    refine ⟨fun stop failed => ?_, requests, fun spare => ?_⟩
    · cases failed
      exact proper
    · rw [same]
      rfl

end Settles

/-- From every place where it has not looked ahead, the parser settles and goes so far. -/
def Settling {α : Type} (Goes : Cursor (List Token) → Cursor (List Token) → Prop)
    (parser : Parse (List Token) α) (twin : Parse Metered α) : Prop :=
  ∀ cursor, cursor.lookahead = none →
    Settles cursor (fun _ after => Goes cursor after) (parser cursor) fun n =>
      twin (cursor.metered n)

namespace Settling

variable {α β : Type} {Goes Onward Whole : Cursor (List Token) → Cursor (List Token) → Prop}
variable {parser : Parse (List Token) α} {twin : Parse Metered α}
variable {next : α → Parse (List Token) β} {other : α → Parse Metered β}

theorem pure (a : α) : Settling Anywhere (Pure.pure a) (Pure.pure a) :=
  fun _ ready => .stay ready trivial

theorem andThen (here : Settling Goes parser twin) (later : ∀ a, Settling Onward (next a) (other a))
    (whole : ∀ {start between after}, Goes start between → between.stream <:+ start.stream →
      Onward between after → after.stream <:+ between.stream → Whole start after) :
    Settling Whole (parser >>= next) (twin >>= other) := by
  intro cursor ready
  refine (here cursor ready).bind fun a between requests ready reached goes => ?_
  exact (later a between ready).imp fun _ _ rest onward => whole goes reached.rest onward rest

theorem followedBy (here : Settling Goes parser twin)
    (later : ∀ a, Settling Anywhere (next a) (other a)) :
    Settling Anywhere (parser >>= next) (twin >>= other) :=
  here.andThen later fun _ _ _ _ => trivial

/-- What moves at first has moved in the end. -/
theorem moves (here : Settling Moves parser twin)
    (later : ∀ a, Settling Anywhere (next a) (other a)) :
    Settling Moves (parser >>= next) (twin >>= other) :=
  here.andThen later fun moves _ _ rest => moves.later rest

/-- What moves after a token has been passed has moved as a whole. -/
theorem passes (here : Settling Passes parser twin)
    (later : ∀ a, Settling Moves (next a) (other a)) :
    Settling Moves (parser >>= next) (twin >>= other) :=
  here.andThen later fun passes reached moves rest => passes.before_moves reached moves rest

/-- The kind of the current token is the same on both sides. -/
theorem onKind {parser : Kind → Parse (List Token) α} {twin : Kind → Parse Metered α}
    (each : ∀ cursor, cursor.lookahead = none →
      Settles cursor (fun _ after => Goes cursor after) (parser cursor.current.kind cursor) fun n =>
        twin cursor.current.kind (cursor.metered n)) :
    Settling Goes (currentKind >>= parser) (currentKind >>= twin) :=
  each

end Settling

/-! ## Steps -/

namespace Stop

variable {source : Text} {token : Token} {stop : Stop}

theorem proper_of_text (failed : token.text source = .error stop) : stop.Proper := by
  unfold Token.text at failed
  split at failed
  · cases failed
  · cases failed
    trivial

theorem proper_of_describe (failed : Token.describe source (some token) = .error stop) :
    stop.Proper := by
  unfold Token.describe at failed
  dsimp only at failed
  split at failed
  · cases failed
  · exact proper_of_text failed

theorem proper_of_locate {offset : Nat} (failed : Location.locate source offset = .error stop) :
    stop.Proper := by
  unfold Location.locate at failed
  split at failed
  · cases failed
  · cases failed
    trivial

end Stop

section Steps

variable {source : Text} {kind : Kind} {message : String} {cursor : Cursor (List Token)}

theorem settles_advance (cursor : Cursor (List Token)) :
    Settles cursor (fun _ after => Passes cursor after) (advance cursor) fun n =>
      advance (cursor.metered n) := by
  obtain ⟨current, lookahead, feed⟩ := cursor
  cases lookahead with
  | some token =>
    exact .answer 0 rfl ⟨List.suffix_cons _ _, Nat.le_refl _⟩ (.inl (Nat.lt_succ_self _))
      fun _ => rfl
  | none =>
    cases feed with
    | nil => exact .answer 1 rfl ⟨List.suffix_rfl, Nat.le_succ _⟩ (.inr rfl) fun _ => rfl
    | cons token feed =>
      exact .answer 1 rfl ⟨List.suffix_cons _ _, Nat.le_refl _⟩ (.inl (Nat.lt_succ_self _))
        fun _ => rfl

theorem settles_unexpected {α : Type} {Left : α → Cursor (List Token) → Prop} :
    Settles cursor Left (unexpected source message cursor) fun n =>
      unexpected source message (cursor.metered n) := by
  refine .query (fun _ => Stop.proper_of_describe) fun got => ?_
  refine .query (fun _ => Stop.proper_of_locate) fun location => ?_
  exact .stop 0 trivial fun _ => rfl

theorem settles_accept (ready : cursor.lookahead = none) :
    Settles cursor
      (fun more after => more = true ∧ cursor.current.kind = kind ∧ Passes cursor after ∨
        more = false ∧ after = cursor)
      (accept kind cursor) fun n => accept kind (cursor.metered n) := by
  show Settles cursor _
    ((if cursor.current.kind = kind then (do advance; return true : Parse (List Token) Bool)
      else return false) cursor) fun n =>
    (if cursor.current.kind = kind then (do advance; return true : Parse Metered Bool)
      else return false) (cursor.metered n)
  by_cases isKind : cursor.current.kind = kind
  · rw [if_pos isKind, if_pos isKind]
    exact (settles_advance cursor).bind fun _ after requests ready reached passes =>
      .stay ready (.inl ⟨rfl, isKind, passes⟩)
  · rw [if_neg isKind, if_neg isKind]
    exact .stay ready (.inr ⟨rfl, rfl⟩)

-- A token can be expected also after a look at the one behind it.
theorem settles_expect (cursor : Cursor (List Token)) :
    Settles cursor (fun _ after => cursor.current.kind = kind ∧ Passes cursor after)
      (expect source kind message cursor) fun n =>
        expect source kind message (cursor.metered n) := by
  show Settles cursor _
    ((if cursor.current.kind = kind then
        (do advance; return cursor.current : Parse (List Token) Token)
      else unexpected source message) cursor) fun n =>
    (if cursor.current.kind = kind then (do advance; return cursor.current : Parse Metered Token)
      else unexpected source message) (cursor.metered n)
  by_cases isKind : cursor.current.kind = kind
  · rw [if_pos isKind, if_pos isKind]
    exact (settles_advance cursor).bind fun _ after requests ready reached passes =>
      .stay ready ⟨isKind, passes⟩
  · rw [if_neg isKind, if_neg isKind]
    exact settles_unexpected

theorem settles_expectName (cursor : Cursor (List Token)) :
    Settles cursor (fun _ after => cursor.current.kind = .ident ∧ Passes cursor after)
      (expectName source message cursor) fun n => expectName source message (cursor.metered n) := by
  refine (settles_expect cursor).bind fun token after requests ready reached named => ?_
  exact .query (fun _ => Stop.proper_of_text) fun text => .stay ready named

theorem settling_expect :
    Settling Passes (expect source kind message) (expect source kind message) :=
  fun cursor _ => (settles_expect cursor).imp fun _ _ _ found => found.2

theorem settling_expect_operand (operand : kind.IsOperand) :
    Settling Moves (expect source kind message) (expect source kind message) :=
  fun cursor _ => (settles_expect cursor).imp fun _ _ _ ⟨isKind, passes⟩ =>
    passes.moves (isKind ▸ operand)

theorem settling_expectName :
    Settling Moves (expectName source message) (expectName source message) :=
  fun cursor _ => (settles_expectName cursor).imp fun _ _ _ ⟨isName, passes⟩ =>
    passes.moves (.inr isName)

/-- A look at the next token takes one request, and the tokens stay the same. -/
theorem settles_peekKind {α : Type} {Left : α → Cursor (List Token) → Prop}
    {next : Kind → Parse (List Token) α} {twin : Kind → Parse Metered α}
    (ready : cursor.lookahead = none)
    (later : ∀ kind ahead, ahead.remaining = cursor.remaining →
      Settles ahead Left (next kind ahead) fun n => twin kind (ahead.metered n)) :
    Settles cursor Left ((peekKind >>= next) cursor) fun n =>
      (peekKind >>= twin) (cursor.metered n) := by
  obtain ⟨current, lookahead, feed, depth⟩ := cursor
  obtain rfl : lookahead = none := ready
  cases feed with
  | nil =>
    have reached : Reached ⟨current, none, [], depth⟩ ⟨current, none, [], depth⟩ 1 :=
      ⟨List.suffix_rfl, Nat.le_succ _⟩
    exact .after reached (later .eof _ rfl) fun _ => rfl
  | cons token feed =>
    have reached :
        Reached ⟨current, none, token :: feed, depth⟩ ⟨current, some token, feed, depth⟩ 1 :=
      ⟨List.suffix_rfl, Nat.le_refl _⟩
    exact .after reached (later token.kind _ rfl) fun _ => rfl

end Steps

/-! ## Loops -/

section Loops

variable {α β : Type} {item : Parse (List Token) α} {twin : Parse Metered α}
variable {origin after : Cursor (List Token)}

/-- A round that leaves fewer tokens has asked for some, and so counts as progress on both
sides. -/
theorem settles_progress {Left : β → Cursor (List Token) → Prop}
    {next : Except Stop (β × Cursor (List Token))} {copy : Nat → Except Stop (β × Cursor Metered)}
    {requests : Nat → Nat} (fewer : after.remaining < origin.remaining)
    (ready : after.lookahead = none) (spent : ∀ spare, spare < requests spare)
    (later : Settles after Left next copy) :
    Settles after Left (if after.remaining < origin.remaining then next else .error .endless)
      fun spare =>
        if (after.metered spare).remaining < (origin.metered (requests spare)).remaining then
          copy spare
        else .error .endless := by
  have metered (spare : Nat) :
      (after.metered spare).remaining < (origin.metered (requests spare)).remaining := by
    have here : (after.metered spare).remaining =
        spare + if after.lookahead.isSome then 1 else 0 := rfl
    have there : (origin.metered (requests spare)).remaining =
        requests spare + if origin.lookahead.isSome then 1 else 0 := rfl
    rw [here, there, ready]
    exact Nat.lt_add_right _ (spent spare)
  simp only [fewer, metered, if_true]
  exact later

theorem settling_commaSeparated (each : Settling Moves item twin) :
    Settling Anywhere (commaSeparated item) (commaSeparated twin) := by
  intro cursor ready
  induction size : cursor.remaining using Nat.strongRecOn generalizing cursor with
  | ind bound ih =>
    subst size
    rw [commaSeparated]
    conv in commaSeparated twin _ => rw [commaSeparated]
    refine (each cursor ready).bind fun first between requests readyBetween reached moves => ?_
    refine (settles_accept readyBetween).bind fun more after others readyAfter rest accepted => ?_
    obtain ⟨rfl, isComma, passes⟩ | ⟨rfl, -⟩ := accepted
    · have fewer : after.remaining < cursor.remaining := by
        obtain fewer | ⟨dry, operand⟩ := moves
        · exact Nat.lt_of_le_of_lt (remaining_le rest.rest) fewer
        · -- a dry list gives back the operand, where the comma has been found
          rw [← current_eq reached.rest (by omega), isComma] at operand
          obtain impossible | impossible := operand <;> cases impossible
      have spent : 0 < others + requests := (reached.trans rest).pos ready fewer
      refine settles_progress fewer readyAfter (by omega) ?_
      refine (ih _ fewer after readyAfter rfl).bind fun others _ _ ready _ _ => ?_
      exact .stay ready trivial
    · exact .stay readyAfter trivial

theorem settles_untilEnd (each : Settling Moves item twin) (cursor : Cursor (List Token))
    (ready : cursor.lookahead = none) (anchored : cursor.Anchored) :
    Settles cursor (fun _ _ => True) (untilEnd item cursor) fun n =>
      untilEnd twin (cursor.metered n) := by
  induction size : cursor.remaining using Nat.strongRecOn generalizing cursor with
  | ind bound ih =>
    subst size
    rw [untilEnd]
    conv in untilEnd twin _ => rw [untilEnd]
    show Settles cursor _ (if cursor.current.kind = .eof then _ else _) fun n =>
      if cursor.current.kind = .eof then _ else _
    by_cases isEnd : cursor.current.kind = .eof
    · simp only [if_pos isEnd]
      exact .stay ready trivial
    · simp only [if_neg isEnd]
      refine (each cursor ready).bind fun first after requests readyAfter reached moves => ?_
      have fewer := anchored.remaining_lt moves
      have spent : 0 < requests := reached.pos ready fewer
      refine settles_progress fewer readyAfter (by omega) ?_
      refine (ih _ fewer after readyAfter (anchored.later reached.rest) rfl).bind
        fun others _ _ ready _ _ => ?_
      exact .stay ready trivial

end Loops

end FunMips
