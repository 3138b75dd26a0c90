import FunMips.Proofs.Frame.Declarations
import Mathlib.Data.List.Nodup

/-!
# The first declaration that is refused

Functions are declared one after the other, each next to those before it, and a function that
cannot be declared is refused for the first of four reasons (`Function.Refused`). The walk over a
program reports the first function that is refused; when all are declared, what is left to refuse
is a frame of the statements that is too large (`FrameTable.ofProgram_eq_error_iff`).

In the end there are programs with a frame of every size (`wideProgram`), on both sides of the
limit.
-/

namespace FunMips

/-- The name that is found was seen before the list, or stands in the list before. -/
theorem firstRepeated?_eq_some_iff {seen names : List String} {name : String} :
    firstRepeated? seen names = some name ↔
      ∃ before after, names = before ++ name :: after ∧ before.Nodup ∧
        (∀ other ∈ before, other ∉ seen) ∧ (name ∈ seen ∨ name ∈ before) := by
  induction names generalizing seen with
  | nil => simp [firstRepeated?]
  | cons first names ih =>
    simp only [firstRepeated?]
    by_cases repeats : first ∈ seen
    · rw [if_pos repeats]
      constructor
      · intro h
        cases h
        exact ⟨[], names, rfl, .nil, by simp, .inl repeats⟩
      · rintro ⟨before, after, equal, -, fresh, -⟩
        cases before with
        | nil =>
          cases equal
          rfl
        | cons other before =>
          cases equal
          exact absurd repeats (fresh first List.mem_cons_self)
    · rw [if_neg repeats, ih]
      constructor
      · rintro ⟨before, after, rfl, distinct, fresh, again⟩
        refine ⟨first :: before, after, rfl, List.nodup_cons.2 ⟨?_, distinct⟩, ?_, ?_⟩
        · exact fun member => fresh first member List.mem_cons_self
        · exact List.forall_mem_cons.2
            ⟨repeats, fun other member => mt (List.mem_cons_of_mem first) (fresh other member)⟩
        · grind
      · rintro ⟨before, after, equal, distinct, fresh, again⟩
        cases before with
        | nil =>
          cases equal
          exact absurd (again.resolve_right List.not_mem_nil) repeats
        | cons other before =>
          cases equal
          obtain ⟨absent, distinct⟩ := List.nodup_cons.1 distinct
          refine ⟨before, after, rfl, distinct, fun other member => ?_, ?_⟩
          · rw [List.mem_cons, not_or]
            exact ⟨fun same => absent (same ▸ member), fresh other (List.mem_cons_of_mem _ member)⟩
          · grind

/-- Why a function cannot be declared after the earlier ones. Of several reasons the first one
holds: each of them asks that those before it do not. -/
inductive Function.Refused (earlier : List Function) (function : Function) : Diagnostic → Prop
  | reserved (isPrint : function.name = printName) :
    Refused earlier function (.reservedName function.name)
  | declared (notPrint : function.name ≠ printName)
      (taken : ∃ other ∈ earlier, other.name = function.name) :
    Refused earlier function (.duplicateFunction function.name)
  /-- The first parameter that stands in the list a second time is named. -/
  | repeated {before after : List String} {name : String} (notPrint : function.name ≠ printName)
      (free : ∀ other ∈ earlier, other.name ≠ function.name)
      (params : function.params = before ++ name :: after) (distinct : before.Nodup)
      (again : name ∈ before) :
    Refused earlier function (.duplicateParameter function.name name)
  | tooLarge (notPrint : function.name ≠ printName)
      (free : ∀ other ∈ earlier, other.name ≠ function.name) (distinct : function.params.Nodup)
      (large : maxFrameWords < function.params.length + function.body.temps + 2) :
    Refused earlier function
      (.frameTooLarge function.name (function.params.length + function.body.temps + 2))

/-- Each of the functions can be declared after those before it. -/
def Function.InOrder (functions : List Function) : Prop :=
  ∀ before function after, functions = before ++ function :: after →
    ∀ diagnostic, ¬ function.Refused before diagnostic

/-- The diagnostic reports the first function that cannot be declared after those before it. -/
def Program.FirstRefused (program : Program) (diagnostic : Diagnostic) : Prop :=
  ∃ earlier function later, program.functions = earlier ++ function :: later ∧
    Function.InOrder earlier ∧ function.Refused earlier diagnostic

theorem Frame.checked_eq_error_iff {frame : Frame} {diagnostic : Diagnostic} :
    frame.checked = .error diagnostic ↔
      maxFrameWords < frame.words ∧ diagnostic = .frameTooLarge frame.name frame.words := by
  unfold Frame.checked
  split
  · next small => simp [Nat.not_lt.2 small]
  · next large => simp [Nat.not_le.1 large, eq_comm]

namespace FrameTable

variable {table : FrameTable} {earlier : List Function} {function : Function}
variable {diagnostic : Diagnostic}

/-- A name is taken if one of the recorded functions has it. -/
theorem isSome_get?_iff (recorded : table.functions = earlier.map Frame.ofFunction)
    (name : String) : (table.get? name).isSome ↔ ∃ other ∈ earlier, other.name = name := by
  simp [get?, recorded, Frame.ofFunction]

/-- A function is refused next to those that are recorded for what keeps it from being declared
after them. -/
theorem declare_eq_error_iff (recorded : table.functions = earlier.map Frame.ofFunction) :
    table.declare function = .error diagnostic ↔ function.Refused earlier diagnostic := by
  have taken := isSome_get?_iff recorded function.name
  constructor
  · intro refused
    unfold declare at refused
    split at refused
    · next isPrint =>
      cases refused
      exact .reserved isPrint
    · next notPrint =>
      split at refused
      · next found =>
        cases refused
        exact .declared notPrint (taken.1 found)
      · next missing =>
        have free : ∀ other ∈ earlier, other.name ≠ function.name := fun other member same =>
          missing (taken.2 ⟨other, member, same⟩)
        split at refused
        · next repeated =>
          cases refused
          obtain ⟨before, after, params, distinct, -, again⟩ :=
            firstRepeated?_eq_some_iff.1 repeated
          exact .repeated notPrint free params distinct (again.resolve_left List.not_mem_nil)
        · next unrepeated =>
          have distinct := (firstRepeated?_eq_none_iff.1 unrepeated).1
          rcases bind_eq_error_iff.1 refused with failed | ⟨frame, -, impossible⟩
          · obtain ⟨large, rfl⟩ := Frame.checked_eq_error_iff.1 failed
            exact .tooLarge notPrint free distinct large
          · cases impossible
  · intro refused
    have missing (free : ∀ other ∈ earlier, other.name ≠ function.name) :
        ¬ (table.get? function.name).isSome := fun found => by
      obtain ⟨other, member, same⟩ := taken.1 found
      exact free other member same
    unfold declare
    cases refused with
    | reserved isPrint => rw [if_pos isPrint]
    | declared notPrint found => rw [if_neg notPrint, if_pos (taken.2 found)]
    | repeated notPrint free params distinct again =>
      rw [if_neg notPrint, if_neg (missing free),
        firstRepeated?_eq_some_iff.2 ⟨_, _, params, distinct, by simp, .inr again⟩]
    | tooLarge notPrint free distinct large =>
      have failed : (Frame.ofFunction function).checked = .error (.frameTooLarge _ _) :=
        Frame.checked_eq_error_iff.2 ⟨large, rfl⟩
      rw [if_neg notPrint, if_neg (missing free),
        firstRepeated?_eq_none_iff.2 ⟨distinct, by simp⟩, failed]
      rfl

/-- What is recorded once functions are declared one after the other. -/
theorem functions_of_foldlM (declared : earlier.foldlM declare {} = .ok table) :
    table.functions = earlier.map Frame.ofFunction := by
  obtain ⟨-, -, -, rfl⟩ := foldlM_declare_eq_ok_iff.1 declared
  rfl

/-- Functions are declared one after the other unless one of them is refused after those before
it. -/
theorem exists_foldlM_declare_iff {functions : List Function} :
    (∃ table, functions.foldlM declare {} = .ok table) ↔ Function.InOrder functions := by
  constructor
  · rintro ⟨table, declared⟩ before function after rfl diagnostic refused
    rw [List.foldlM_append] at declared
    obtain ⟨between, reached, declared⟩ := bind_eq_ok_iff.1 declared
    have stops := (declare_eq_error_iff (functions_of_foldlM reached)).2 refused
    rw [List.foldlM_cons, stops] at declared
    cases declared
  · intro inOrder
    cases declared : functions.foldlM declare {} with
    | ok table => exact ⟨table, rfl⟩
    | error diagnostic =>
      obtain ⟨before, function, after, between, equal, reached, refused⟩ :=
        foldlM_eq_error_iff.1 declared
      exact absurd ((declare_eq_error_iff (functions_of_foldlM reached)).1 refused)
        (inOrder before function after equal diagnostic)

theorem foldlM_declare_eq_error_iff {program : Program} :
    program.functions.foldlM declare {} = .error diagnostic ↔ program.FirstRefused diagnostic := by
  rw [foldlM_eq_error_iff]
  constructor
  · rintro ⟨before, function, after, between, equal, reached, refused⟩
    exact ⟨before, function, after, equal, exists_foldlM_declare_iff.1 ⟨between, reached⟩,
      (declare_eq_error_iff (functions_of_foldlM reached)).1 refused⟩
  · rintro ⟨before, function, after, equal, inOrder, refused⟩
    obtain ⟨between, reached⟩ := exists_foldlM_declare_iff.2 inOrder
    exact ⟨before, function, after, between, equal, reached,
      (declare_eq_error_iff (functions_of_foldlM reached)).2 refused⟩

/-- The first function that is refused is reported, and the frame of the statements only when there
is none. -/
theorem ofProgram_eq_error_iff {program : Program} :
    ofProgram program = .error diagnostic ↔
      program.FirstRefused diagnostic ∨
        Function.InOrder program.functions ∧
          maxFrameWords < Expr.maxTemps program.statements + 2 ∧
          diagnostic = .frameTooLarge mainName (Expr.maxTemps program.statements + 2) := by
  have main (diagnostic : Diagnostic) :
      (Frame.ofStatements program.statements).checked = .error diagnostic ↔
        maxFrameWords < Expr.maxTemps program.statements + 2 ∧
          diagnostic = .frameTooLarge mainName (Expr.maxTemps program.statements + 2) := by
    rw [Frame.checked_eq_error_iff]
    simp [Frame.words, Frame.ofStatements]
  rw [ofProgram_eq, bind_eq_error_iff, foldlM_declare_eq_error_iff, ← exists_foldlM_declare_iff]
  refine or_congr Iff.rfl ⟨?_, ?_⟩
  · rintro ⟨table, declared, failed⟩
    rcases bind_eq_error_iff.1 failed with large | ⟨frame, -, impossible⟩
    · exact ⟨⟨table, declared⟩, (main diagnostic).1 large⟩
    · cases impossible
  · rintro ⟨⟨table, declared⟩, large⟩
    exact ⟨table, declared, bind_eq_error_iff.2 (.inl ((main diagnostic).2 large))⟩

end FrameTable

namespace Program

variable {program : Program}

/-- The frame of a function is found under its name, and nothing under other names. -/
theorem Declarable.get?_frames_eq_some_iff (declarable : program.Declarable) {name : String}
    {frame : Frame} :
    program.frames.get? name = some frame ↔
      ∃ function ∈ program.functions, function.name = name ∧ frame = Frame.ofFunction function := by
  rw [program.get?_frames, Option.map_eq_some_iff]
  constructor
  · rintro ⟨function, found, rfl⟩
    obtain ⟨member, named⟩ := mem_of_function? found
    exact ⟨function, member, named, rfl⟩
  · rintro ⟨function, member, rfl, rfl⟩
    exact ⟨function, declarable.function?_eq member, rfl⟩

theorem declarable_iff :
    program.Declarable ↔
      (∀ function ∈ program.functions, function.name ≠ printName) ∧
      (program.functions.map Function.name).Nodup ∧
      (∀ function ∈ program.functions, function.params.Nodup) ∧
      (∀ function ∈ program.functions,
        function.params.length + function.body.temps + 2 ≤ maxFrameWords) ∧
      Expr.maxTemps program.statements + 2 ≤ maxFrameWords := by
  have main : (Frame.ofStatements program.statements).words =
      Expr.maxTemps program.statements + 2 := by
    simp [Frame.words, Frame.ofStatements]
  constructor
  · rintro ⟨functions, distinct, small⟩
    exact ⟨fun function member => (functions function member).notPrint, distinct,
      fun function member => (functions function member).params,
      fun function member => (functions function member).words, main ▸ small⟩
  · rintro ⟨notPrint, distinct, params, words, small⟩
    exact ⟨fun function member => ⟨notPrint function member, params function member,
      words function member⟩, distinct, main ▸ small⟩

end Program

namespace FrameTable

theorem lookup_eq_ok_iff {table : FrameTable} {name : String} {frame : Frame} :
    table.lookup name = .ok frame ↔ table.get? name = some frame := by
  unfold lookup
  cases table.get? name <;> simp

/-- The frames of a program are recorded exactly if its declarations are valid: no function has the
name of the built-in or of another one, no parameter stands twice, and no frame is too large. There
is then one frame for each function, which is found under its name and no other, and one for the
statements. Otherwise the first function that is refused after those before it is reported, and the
frame of the statements only if there is no such function. -/
theorem ofProgram_decides (program : Program) :
    ((∃ table, ofProgram program = .ok table) ↔
      (∀ function ∈ program.functions, function.name ≠ "print") ∧
      (program.functions.map Function.name).Nodup ∧
      (∀ function ∈ program.functions, function.params.Nodup) ∧
      (∀ function ∈ program.functions, function.params.length + function.body.temps + 2 ≤ 8191) ∧
      Expr.maxTemps program.statements + 2 ≤ 8191) ∧
    (∀ table, ofProgram program = .ok table →
      table.functions = program.functions.map (fun function =>
        ⟨function.name, function.params.length, function.body.temps⟩) ∧
      table.size = program.functions.length ∧
      (∀ name frame, table.get? name = some frame ↔
        ∃ function ∈ program.functions, function.name = name ∧
          frame = ⟨function.name, function.params.length, function.body.temps⟩) ∧
      (∀ name frame, table.lookup name = .ok frame ↔ table.get? name = some frame) ∧
      (∀ name, (∀ function ∈ program.functions, function.name ≠ name) →
        table.lookup name = .error (.frameNotFound name)) ∧
      table.main = .ok ⟨"main", 0, Expr.maxTemps program.statements⟩) ∧
    ∀ diagnostic, ofProgram program = .error diagnostic ↔
      program.FirstRefused diagnostic ∨
        Function.InOrder program.functions ∧ 8191 < Expr.maxTemps program.statements + 2 ∧
          diagnostic = .frameTooLarge "main" (Expr.maxTemps program.statements + 2) := by
  refine ⟨?_, fun table recorded => ?_, fun diagnostic => ofProgram_eq_error_iff⟩
  · simp only [ofProgram_eq_ok_iff, exists_and_left, exists_eq, and_true]
    exact Program.declarable_iff
  · obtain ⟨declarable, rfl⟩ := ofProgram_eq_ok_iff.1 recorded
    refine ⟨rfl, by simp [size, Program.frames], fun name frame =>
      declarable.get?_frames_eq_some_iff, fun name frame => lookup_eq_ok_iff, ?_, rfl⟩
    intro name undeclared
    have missing : program.function? name = none := by
      simpa [Program.function?] using undeclared
    simp [lookup, program.get?_frames, missing]

/-- Three functions cannot be declared: a parameter of the second stands twice, and so does another
one, the third has the name of the first, and the last that of the built-in. -/
def illDeclared : Program where
  decls :=
    [.function { name := "f", params := ["x", "y"], body := .var "y" },
     .function { name := "g", params := ["x", "y", "y", "x"], body := .number 1 },
     .statement (.binary .plus (.number 1) (.call "f" [.number 2, .number 3])),
     .function { name := "f", params := [], body := .number 2 },
     .function { name := "print", params := ["n"], body := .var "n" }]

theorem ofProgram_decides_illDeclared :
    illDeclared.FirstRefused (.duplicateParameter "g" "y") ∧
      ∃ table, ofProgram scattered = .ok table ∧ table.size = 2 ∧
        table.get? "pick" = some ⟨"pick", 3, 1⟩ ∧
        table.lookup "print" = .error (.frameNotFound "print") ∧
        table.main = .ok ⟨"main", 0, 1⟩ := by
  obtain ⟨-, -, refused⟩ := ofProgram_decides illDeclared
  obtain ⟨-, found, -⟩ := ofProgram_decides scattered
  constructor
  · rcases (refused (.duplicateParameter "g" "y")).1 rfl with first | ⟨-, -, impossible⟩
    · exact first
    · cases impossible
  · obtain ⟨-, count, records, -, missing, main⟩ := found scattered.frames rfl
    refine ⟨scattered.frames, rfl, count, ?_, missing "print" (by decide), main⟩
    exact (records "pick" _).2 ⟨pick, by decide, rfl, rfl⟩

end FrameTable

/-! ## Frames of every size -/

/-- The sum of as many ones and of one more. -/
def sumOfOnes : Nat → Expr
  | 0 => .number 1
  | count + 1 => .binary .plus (.number 1) (sumOfOnes count)

theorem temps_sumOfOnes (count : Nat) : (sumOfOnes count).temps = count := by
  induction count with
  | zero => rfl
  | succ count ih => simp [sumOfOnes, Expr.temps, ih]

/-- Names `a`, `aa`, `aaa` and so on. -/
def numberedName (number : Nat) : String := String.ofList (List.replicate (number + 1) 'a')

theorem numberedName_injective : Function.Injective numberedName := fun number other same => by
  simpa [numberedName] using congrArg String.length same

/-- A function of that many parameters whose body needs that many slots. -/
def wideFunction (width count : Nat) : Function :=
  { name := "f", params := (List.range width).map numberedName, body := sumOfOnes count }

/-- The program that declares it. -/
def wideProgram (width count : Nat) : Program := { decls := [.function (wideFunction width count)] }

section Wide

variable {width count : Nat}

theorem params_wideFunction :
    (wideFunction width count).params.length = width ∧ (wideFunction width count).params.Nodup :=
  ⟨by simp [wideFunction], List.Nodup.map numberedName_injective List.nodup_range⟩

theorem words_wideFunction :
    (Frame.ofFunction (wideFunction width count)).words = width + count + 2 := by
  rw [Frame.words, Frame.ofFunction, params_wideFunction.1]
  simp only [wideFunction, temps_sumOfOnes]

theorem declarable_wideProgram (small : width + count + 2 ≤ maxFrameWords) :
    (wideProgram width count).Declarable where
  functions := List.forall_mem_singleton.2
    ⟨by simp [wideFunction, printName], params_wideFunction.2, by rwa [words_wideFunction]⟩
  distinct := List.nodup_singleton _
  main := (by decide : 2 ≤ maxFrameWords)

theorem ofProgram_wideProgram (large : maxFrameWords < width + count + 2) :
    FrameTable.ofProgram (wideProgram width count) =
      .error (.frameTooLarge "f" (width + count + 2)) := by
  rw [← words_wideFunction] at large ⊢
  refine FrameTable.ofProgram_eq_error_iff.2 (.inl ⟨[], wideFunction width count, [], rfl, ?_, ?_⟩)
  · simp [Function.InOrder]
  · exact .tooLarge (by simp [wideFunction, printName]) (by simp) params_wideFunction.2 large

end Wide

end FunMips
