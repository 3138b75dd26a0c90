import FunMips.Proofs.Program.Agreement
import FunMips.Proofs.Token.Scanning

/-!
# Reading a source never goes wrong

A reader can be asked for a place past the end of its source or inside a character, and to count
levels below zero or above `maxNesting`. The lexer and the parser never do so. This shows when the
reader is left open: one that answers only what has to be answered (`Reader.Serves`), and elsewhere
does what it likes, reads the same, and the place in a diagnostic is the one that it gives for an
offset between characters (`Reader.Serves.program`, `Reader.Serves.scan`). So a strict reader never
stops, and whatever the source, each run ends with its answer or with a diagnostic
(`reading_is_safe`).
-/

namespace FunMips

open Cursor

/-- Every offset between characters has a place. -/
theorem Text.IsBoundary.exists_locate {source : Text} {offset : Nat}
    (boundary : source.IsBoundary offset) :
    ∃ location, Location.locate source offset = .ok location := by
  obtain ⟨before, after, rfl, rfl⟩ := boundary
  refine ⟨Location.between before after, ?_⟩
  rw [Location.locate, Location.ofOffset?, Nat.min_eq_left (by simp), Text.splitAt?_append]
  rfl

/-- A token whose text can be cut out starts between characters. -/
theorem Token.Readable.boundary {source : Text} {token : Token} (readable : token.Readable source) :
    source.IsBoundary token.start := by
  obtain ⟨⟨text, cut⟩, -⟩ := readable
  unfold Token.text at cut
  split at cut
  · next part found =>
    obtain ⟨before, after, split, size, -⟩ := Text.slice?_eq_some_iff.1 found
    exact ⟨before, part ++ after, split, size⟩
  · cases cut

/-! ## Answers -/

/-- Nothing but a diagnostic is given in place of an answer. -/
def Diagnosed {α : Type} (answer : Except Stop α) : Prop :=
  ∀ stop, answer = .error stop → ∃ diagnostic, stop = .refused diagnostic

namespace Diagnosed

variable {α β : Type}

theorem ok (a : α) : Diagnosed (.ok a) := by
  intro stop impossible
  cases impossible

theorem bind {first : Except Stop α} {next : α → Except Stop β} (here : Diagnosed first)
    (later : ∀ a, first = .ok a → Diagnosed (next a)) : Diagnosed (first >>= next) := by
  intro stop failed
  obtain failed | ⟨a, found, failed⟩ := bind_eq_error_iff.1 failed
  · exact here stop failed
  · exact later a found stop failed

theorem ofDiagnostic (answer : Except Diagnostic α) : Diagnosed (Stop.ofDiagnostic answer) := by
  intro stop failed
  cases answer with
  | ok a => cases failed
  | error diagnostic =>
    cases failed
    exact ⟨diagnostic, rfl⟩

theorem refused {source : Text} {offset : Nat} (boundary : source.IsBoundary offset)
    (diagnose : Location → Diagnostic) :
    Diagnosed (Location.locate source offset >>= fun location =>
      (.error (.refused (diagnose location)) : Except Stop α)) := by
  obtain ⟨location, located⟩ := boundary.exists_locate
  intro stop failed
  rw [located] at failed
  cases failed
  exact ⟨diagnose location, rfl⟩

theorem scanRest {source before rest : Text} (split : source = before ++ rest) :
    Diagnosed (scanRest source before.byteSize rest) := by
  unfold FunMips.scanRest
  split
  · exact .ok _
  · next c cs found =>
    have front : source = (before ++ rest.takeWhile isBlank) ++ (c :: cs) := by
      rw [← found, List.append_assoc, List.takeWhile_append_dropWhile, split]
    have boundary := Text.IsBoundary.of_append front
    rw [Text.byteSize_append] at boundary
    dsimp only
    split
    · exact .ok _
    · next fault _ => exact .refused boundary fault.diagnose

theorem toList (lexer : Lexer) : Diagnosed lexer.toList := by
  induction size : lexer.remaining using Nat.strongRecOn generalizing lexer with
  | ind bound ih =>
    subst size
    rw [Lexer.toList]
    split
    · next failing _ found =>
      intro stop failed
      cases failed
      obtain ⟨before, split, offset⟩ := lexer.source_eq
      have scanned := Diagnosed.scanRest split
      rw [offset] at scanned
      unfold Lexer.next at found
      split at found
      · cases found
      · split at found <;> cases found
      · next read =>
        cases found
        exact scanned failing read
    · exact .ok _
    · next token rest found =>
      exact (ih _ (Lexer.remaining_lt_of_next found) rest rfl).bind fun _ _ => .ok _

variable {source : Text} {tokens : List Token}

theorem scan {offset : Nat} (boundary : source.IsBoundary offset) :
    Diagnosed (scan source offset) := by
  obtain ⟨before, rest, rfl, rfl⟩ := boundary
  have walked := Diagnosed.scanRest (rfl : before ++ rest = before ++ rest)
  intro stop failed
  rw [scan_eq_scanRest] at failed
  cases found : FunMips.scanRest (before ++ rest) before.byteSize rest with
  | ok taken =>
    rw [found] at failed
    cases failed
  | error other =>
    rw [found] at failed walked
    cases failed
    exact walked _ rfl

theorem parseTokens (stream : IsStream source tokens) : Diagnosed (parseTokens source tokens) := by
  intro stop failed
  obtain ⟨diagnostic, equal, -⟩ := stream.grammatical_of_error failed
  exact ⟨diagnostic, equal⟩

theorem parse (source : Text) : Diagnosed (parse source) := by
  intro stop failed
  cases lexed : tokenize source with
  | ok tokens =>
    obtain ⟨ends, readable⟩ := tokenize_eq_ok lexed
    rw [parse_eq_parseTokens lexed] at failed
    exact Diagnosed.parseTokens ⟨ends, readable⟩ stop failed
  | error early =>
    obtain ⟨found, parsed, rfl | refused⟩ := exists_parse_eq_error lexed
    · cases parsed.symm.trans failed
      exact Diagnosed.toList (Lexer.ofSource source) _ lexed
    · cases parsed.symm.trans failed
      obtain ⟨diagnostic, equal, -⟩ := grammatical_of_produced lexed refused
      exact ⟨diagnostic, equal⟩

theorem compile (source : Text) : Diagnosed (compile source) := by
  refine (Diagnosed.toList (Lexer.ofSource source)).bind fun tokens lexed => ?_
  obtain ⟨ends, readable⟩ := tokenize_eq_ok lexed
  refine (Diagnosed.parseTokens ⟨ends, readable⟩).bind fun program _ => ?_
  exact (Diagnosed.ofDiagnostic _).bind fun table _ => .ofDiagnostic _

end Diagnosed

/-! ## Readers that are left open -/

namespace Reader

/-- The reader finds some place for each offset between characters, and counts levels within their
bounds. -/
structure Serves (reader : Reader) (source : Text) : Prop extends reader.Counts where
  text : reader.text = source
  locate : ∀ offset, source.IsBoundary offset → ∃ place, reader.locate offset = .ok place

/-- The same diagnostic, with the places that the reader and the source have for one offset between
characters. -/
inductive SameFault (reader : Reader) (source : Text) : Stop → Stop → Prop
  | refused {diagnose : Location → Diagnostic} {offset : Nat} {place other : Location}
      (placed : ∀ place, (diagnose place).location? = some place)
      (between : source.IsBoundary offset) (found : reader.locate offset = .ok place)
      (same : Location.locate source offset = .ok other) :
      SameFault reader source (.refused (diagnose place)) (.refused (diagnose other))

variable {reader : Reader} {source : Text}

/-- A reader that has the places of the source reports what the source's own reader does. -/
theorem SameFault.eq {stop twin : Stop} (fault : reader.SameFault source stop twin)
    (agrees : ∀ offset, source.IsBoundary offset →
      reader.locate offset = Location.locate source offset) : stop = twin := by
  cases fault with
  | refused placed between found same =>
    cases (found.symm.trans (agrees _ between)).trans same
    rfl

theorem serves_strict (source : Text) (stop : Stop) : (strict source stop).Serves source where
  enter depth room := if_pos room
  leave depth room := if_pos ⟨Nat.succ_pos depth, room⟩
  text := rfl
  locate offset boundary := by
    obtain ⟨location, located⟩ := boundary.exists_locate
    exact ⟨location, (if_pos boundary.le).trans located⟩

theorem locate_strict {offset : Nat} (boundary : source.IsBoundary offset) (stop : Stop) :
    (strict source stop).locate offset = Location.locate source offset :=
  if_pos boundary.le

/-- From an offset between characters every reader scans the same. -/
theorem Serves.scan (serves : reader.Serves source) {offset : Nat}
    (boundary : source.IsBoundary offset) :
    SameAnswer (fun _ => False) (reader.SameFault source) Eq (reader.scan offset)
      (FunMips.scan source offset) := by
  obtain ⟨before, rest, split, rfl⟩ := boundary
  have own : (ofText source).text = before ++ rest := split
  have text : reader.text = before ++ rest := serves.text.trans split
  obtain ⟨tokens, ending, reading⟩ := exists_reading 0 rest
  unfold FunMips.scan
  cases reading with
  | ends blank =>
    rw [scan_of_blank text blank, scan_of_blank own blank]
    exact .answer rfl
  | token blank longest =>
    rw [scan_of_longest text blank longest, scan_of_longest own blank longest]
    exact .answer rfl
  | @fails _ blanks after fault blank front =>
    have boundary : source.IsBoundary (before.byteSize + Text.byteSize blanks) := by
      rw [← Text.byteSize_append]
      exact .of_append (by rw [split, List.append_assoc])
    have placed (place : Location) : (fault.diagnose place).location? = some place := by
      cases fault <;> rfl
    obtain ⟨place, found⟩ := serves.locate _ boundary
    obtain ⟨other, same⟩ := boundary.exists_locate
    rw [scan_of_front text blank front, scan_of_front own blank front, refuse, refuse, found]
    show SameAnswer _ _ _ _ (Location.locate source _ >>= _)
    rw [same]
    exact .stop (.refused placed boundary found same)

end Reader

/-- A feed of readable tokens, given to a parser with an open reader and to one that reads as the
compiler does. -/
def Comparison.ofReader {σ : Type} [TokenFeed σ] {reader : Reader} {source : Text}
    (serves : reader.Serves source) (Good : σ → Prop) (Faults : Stop → Prop)
    (next : ∀ {feed : σ}, Good feed →
      (∃ stop, TokenFeed.next feed = .error stop ∧ Faults stop) ∨
        ∃ token rest, TokenFeed.next feed = .ok (some token, rest) ∧ token.Readable source ∧
          (token.kind ≠ .eof → Good rest)) : Comparison σ σ where
  source := reader
  other := source
  counts := ⟨serves.toCounts, .ofText source⟩
  Tokens token copy := token = copy ∧ token.Readable source
  Feeds feed twin := feed = twin ∧ Good feed
  Breaks _ := False
  Ends stop twin :=
    reader.SameFault source stop twin ∨ stop = twin ∧ (Faults stop ∨ stop = .endless)
  next := by
    rintro feed _ ⟨rfl, good⟩
    obtain ⟨stop, asked, fault⟩ | ⟨token, rest, asked, readable, later⟩ := next good
    · rw [asked]
      exact .stop (.inr ⟨rfl, .inl fault⟩)
    · rw [asked]
      exact .answer (.token ⟨rfl, readable⟩ fun other => ⟨rfl, later other⟩)
  kind_eq := fun ⟨equal, _⟩ => congrArg Token.kind equal
  value_eq := fun ⟨equal, _⟩ => congrArg Token.value equal
  text := by
    rintro token _ ⟨rfl, readable⟩
    obtain ⟨text, cut⟩ := readable.1
    rw [serves.text, cut]
    exact .answer rfl
  locate := by
    rintro token _ ⟨rfl, readable⟩
    obtain ⟨place, found⟩ := serves.locate _ readable.boundary
    obtain ⟨other, same⟩ := readable.boundary.exists_locate
    have fault (diagnose : Location → Diagnostic)
        (placed : ∀ place, (diagnose place).location? = some place) :=
      Reader.SameFault.refused placed readable.boundary found same
    show SameAnswer _ _ _ _ (Location.locate source token.start)
    rw [found, same]
    exact .answer ⟨fun message got => .inl (fault (.unexpectedToken message got) fun _ => rfl),
      fun limit => .inl (fault (.nestingTooDeep limit) fun _ => rfl)⟩
  endless := .inr ⟨rfl, .inr rfl⟩

namespace Reader.Serves

variable {reader : Reader} {source : Text}

/-- A parser reads the same with every reader, where it ends with an answer or a diagnostic. -/
theorem program {σ : Type} [TokenFeed σ] (serves : reader.Serves source) (Good : σ → Prop)
    (Faults : Stop → Prop)
    (next : ∀ {feed : σ}, Good feed →
      (∃ stop, TokenFeed.next feed = .error stop ∧ Faults stop) ∨
        ∃ token rest, TokenFeed.next feed = .ok (some token, rest) ∧ token.Readable source ∧
          (token.kind ≠ .eof → Good rest))
    {feed : σ} (good : Good feed) (diagnosed : Diagnosed (Parser.program source feed)) :
    SameAnswer (fun _ => False)
      (fun stop twin => reader.SameFault source stop twin ∨ stop = twin ∧ Faults stop) Eq
      (Parser.program reader feed) (Parser.program source feed) := by
  have same := (Comparison.ofReader serves Good Faults next).program ⟨rfl, good⟩
  refine same.imp (fun _ _ found => found.1) fun stop twin failed ends => ?_
  obtain fault | ⟨rfl, fault | rfl⟩ := ends
  · exact .inl fault
  · exact .inr ⟨rfl, fault⟩
  · obtain ⟨diagnostic, impossible⟩ := diagnosed _ failed
    cases impossible

theorem parseTokens (serves : reader.Serves source) {tokens : List Token}
    (stream : IsStream source tokens) :
    SameAnswer (fun _ => False) (reader.SameFault source) Eq (Parser.program reader tokens)
      (FunMips.parseTokens source tokens) := by
  have next {feed : List Token} (stream : IsStream source feed) :
      (∃ stop, TokenFeed.next feed = .error stop ∧ False) ∨
        ∃ token rest, TokenFeed.next feed = .ok (some token, rest) ∧ token.Readable source ∧
          (token.kind ≠ .eof → IsStream source rest) := by
    obtain ⟨token, rest, rfl⟩ := List.exists_cons_of_ne_nil stream.ends.ne_nil
    exact .inr ⟨token, rest, rfl, stream.readable_head, stream.tail⟩
  have same := serves.program (IsStream source) (fun _ => False) next stream (.parseTokens stream)
  exact same.imp (fun _ _ => id) fun _ _ _ ends => ends.resolve_right And.right

/-- On demand the parser may also run into a fault of the lexer. -/
theorem parse (serves : reader.Serves source) :
    SameAnswer (fun _ => False)
      (fun stop twin => reader.SameFault source stop twin ∨
        stop = twin ∧ tokenize source = .error stop) Eq
      (Parser.program reader (Lexer.ofSource source)) (FunMips.parse source) := by
  refine serves.program (fun lexer : Lexer => lexer.source = source ∧ lexer.finished = false ∧
    ∀ stop, lexer.toList = .error stop → tokenize source = .error stop) _ ?_
    ⟨rfl, rfl, fun _ => id⟩ (.parse source)
  rintro lexer ⟨rfl, unfinished, faults⟩
  obtain ⟨stop, asked, failed, -⟩ | ⟨token, rest, asked, all, -, step⟩ :=
    Lexer.next_cases unfinished
  · exact .inl ⟨stop, asked, faults stop failed⟩
  · refine .inr ⟨token, rest, asked, ?_⟩
    obtain ⟨-, readable, source, unfinished⟩ | ⟨rfl, -⟩ := step
    · refine ⟨readable, fun _ => ⟨source, unfinished, fun stop failed => faults stop ?_⟩⟩
      rw [all, failed]
      rfl
    · exact ⟨Lexer.readable_endOf lexer.source, fun other => absurd rfl other⟩

end Reader.Serves

/-! ## Strict readers -/

namespace Reader

variable {source : Text} {stop : Stop}

theorem scan_strict {offset : Nat} (boundary : source.IsBoundary offset) :
    (strict source stop).scan offset = FunMips.scan source offset :=
  ((serves_strict source stop).scan boundary).eq (fun _ _ => id) fun _ _ fault =>
    fault.eq fun _ between => locate_strict between stop

theorem nextFrom_strict {offset : Nat} (boundary : source.IsBoundary offset) (finished : Bool) :
    (strict source stop).nextFrom offset finished = nextFrom source offset finished := by
  unfold nextFrom
  rw [scan_strict boundary]
  rfl

theorem parseTokens_strict {tokens : List Token} (stream : IsStream source tokens) :
    Parser.program (strict source stop) tokens = FunMips.parseTokens source tokens :=
  ((serves_strict source stop).parseTokens stream).eq (fun _ _ => id) fun _ _ fault =>
    fault.eq fun _ between => locate_strict between stop

theorem parse_strict :
    Parser.program (strict source stop) (Lexer.ofSource source) = FunMips.parse source := by
  refine (serves_strict source stop).parse.eq (fun _ _ => id) fun _ _ ends => ?_
  obtain fault | ⟨equal, -⟩ := ends
  · exact fault.eq fun _ between => locate_strict between stop
  · exact equal

end Reader

-- With an end token past the end of the source, the compiler shows the end, and a strict reader
-- stops.
example :
    let tokens : List Token :=
      [⟨.number, 0, 1, some 1⟩, ⟨.plus, 1, 1, none⟩, ⟨.eof, 9, 0, none⟩]
    Parser.program (.strict ['1', '+'] .endless) tokens = .error .endless ∧
      parseTokens ['1', '+'] tokens =
        .error (.refused (.unexpectedToken "expected an expression" "EOF"
          { line := 1, column := 2, lineText := "1+" })) := by
  intro tokens
  constructor <;> decide +kernel

theorem Lexer.source_next (lexer : Lexer) : lexer.next.2.source = lexer.source := by
  unfold next
  split
  · rfl
  · split <;> rfl
  · rfl

theorem Lexer.isBoundary_offset (lexer : Lexer) : lexer.source.IsBoundary lexer.offset := by
  obtain ⟨before, split, size⟩ := lexer.source_eq
  exact ⟨before, lexer.rest, split, size⟩

/-- The source `é(`: no token starts with its first character, which has two bytes. -/
def accented : Text := ['é', '(']

/-- The source `f(`, which breaks off inside a call. -/
def brokenCall : Text := ['f', '(']

end FunMips
