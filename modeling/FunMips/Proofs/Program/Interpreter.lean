import FunMips.Program.Evaluation

/-!
# Running programs

An interpreter beside the evaluation relations. It is told how many calls may be open at once, and
it hands on what has been printed so far. A run that needs more open calls is unfinished, so a
program that is unfinished for every such number runs for ever; a sum that does not fit in a word
and a name that means nothing are endings of their own.

The interpreter and the relations agree: a value is found with enough open calls exactly when the
relation has it (`Evaluates.exists_fuel`, `Expr.evaluates_of_evalWith`).
-/

namespace FunMips

/-- How evaluation can end. -/
inductive Evaluation (α : Type)
  /-- There is a value, and this is all that has been printed. -/
  | value (value : α) (printed : List Int32)
  /-- A sum or difference does not fit in a word. -/
  | overflow (printed : List Int32)
  /-- Too many calls were open at once. -/
  | unfinished
  /-- A name means nothing, or a call has the wrong number of arguments. -/
  | stuck

namespace Evaluation

variable {α β : Type}

/-- Goes on with a value, if there is one. -/
def andThen (first : Evaluation α) (next : α → List Int32 → Evaluation β) : Evaluation β :=
  match first with
  | value a printed => next a printed
  | overflow printed => .overflow printed
  | unfinished => .unfinished
  | stuck => .stuck

@[simp] theorem andThen_value (a : α) (printed : List Int32)
    (next : α → List Int32 → Evaluation β) : (value a printed).andThen next = next a printed := rfl

/-- A value at the end means that there was one to go on with. -/
theorem andThen_eq_value {first : Evaluation α} {next : α → List Int32 → Evaluation β} {b : β}
    {printed : List Int32} (h : first.andThen next = value b printed) :
    ∃ a between, first = value a between ∧ next a between = value b printed := by
  cases first with
  | value a between => exact ⟨a, between, rfl, h⟩
  | overflow => cases h
  | unfinished => cases h
  | stuck => cases h

end Evaluation

/-- Calls of a function with arguments, after what has been printed. -/
abbrev Calls := Function → List Int32 → List Int32 → Evaluation Int32

namespace Expr

mutual

/-- The value of an expression, where `calls` says what calls of functions do. -/
def evalWith (program : Program) (calls : Calls) (env : Environment) :
    Expr → List Int32 → Evaluation Int32
  | .number value, printed => .value value printed
  | .var name, printed =>
    match env.lookup name with
    | some value => .value value printed
    | none => .stuck
  | .binary op left right, printed =>
    (left.evalWith program calls env printed).andThen fun a printed =>
      (right.evalWith program calls env printed).andThen fun b printed =>
        match op.result? a b with
        | some value => .value value printed
        | none => .overflow printed
  | .conditional left right whenEqual otherwise, printed =>
    (left.evalWith program calls env printed).andThen fun a printed =>
      (right.evalWith program calls env printed).andThen fun b printed =>
        if a = b then whenEqual.evalWith program calls env printed
        else otherwise.evalWith program calls env printed
  | .call name args, printed =>
    if name = printName then
      match args with
      | [arg] =>
        (arg.evalWith program calls env printed).andThen fun value printed =>
          .value value (printed ++ [value])
      | _ => .stuck
    else
      match program.function? name with
      | some function =>
        (evalArgsWith program calls env args printed).andThen fun values printed =>
          if function.params.length = values.length then calls function values printed
          else .stuck
      | none => .stuck

/-- The values of arguments, the last one first. -/
def evalArgsWith (program : Program) (calls : Calls) (env : Environment) :
    List Expr → List Int32 → Evaluation (List Int32)
  | [], printed => .value [] printed
  | arg :: args, printed =>
    (evalArgsWith program calls env args printed).andThen fun values printed =>
      (arg.evalWith program calls env printed).andThen fun value printed =>
        .value (value :: values) printed

end

theorem evalWith_print {program : Program} {calls : Calls} {env : Environment} (arg : Expr)
    (printed : List Int32) :
    (Expr.call printName [arg]).evalWith program calls env printed =
      (arg.evalWith program calls env printed).andThen fun value printed =>
        .value value (printed ++ [value]) := by
  rw [evalWith, if_pos rfl]

/-- A call of a declared function evaluates its arguments and then makes the call. -/
theorem evalWith_call {program : Program} {calls : Calls} {env : Environment} {name : String}
    {function : Function} (args : List Expr) (printed : List Int32) (declared : name ≠ printName)
    (found : program.function? name = some function) :
    (Expr.call name args).evalWith program calls env printed =
      (evalArgsWith program calls env args printed).andThen fun values printed =>
        if function.params.length = values.length then calls function values printed
        else .stuck := by
  unfold evalWith
  rw [if_neg declared, found]

end Expr

namespace Program

/-- Calls of functions of a program, of which at most `fuel` may be open at once. -/
def calls (program : Program) : Nat → Calls
  | 0, _, _, _ => .unfinished
  | fuel + 1, function, values, printed =>
    function.body.evalWith program (program.calls fuel) (function.params.zip values) printed

/-- Runs statements one after the other. -/
def runStatements (program : Program) (fuel : Nat) : List Expr → List Int32 → Evaluation Unit
  | [], printed => .value () printed
  | statement :: statements, printed =>
    (statement.evalWith program (program.calls fuel) [] printed).andThen fun _ printed =>
      program.runStatements fuel statements printed

/-- Runs a program with at most `fuel` calls open at once. -/
def run (program : Program) (fuel : Nat) : Evaluation Unit :=
  program.runStatements fuel program.statements []

/-- The program meets a sum or difference that does not fit in a word. -/
def Overflows (program : Program) : Prop := ∃ fuel printed, program.run fuel = .overflow printed

/-- The program runs for ever: no number of open calls is enough. -/
def Diverges (program : Program) : Prop := ∀ fuel, program.run fuel = .unfinished

end Program

/-! ## Values found by the interpreter -/

section Sound

variable {program : Program} {calls : Calls} {env : Environment}

/-- Values that calls give are values of the function's body. -/
def Calls.Sound (program : Program) (calls : Calls) : Prop :=
  ∀ {function : Function} {values printed : List Int32} {value : Int32} {after : List Int32},
    calls function values printed = .value value after →
      ∃ out, after = printed ++ out ∧
        Evaluates program (function.params.zip values) function.body value out

namespace Expr

mutual

theorem evaluates_of_evalWith (sound : calls.Sound program) :
    ∀ (e : Expr) {printed : List Int32} {value : Int32} {after : List Int32},
      e.evalWith program calls env printed = .value value after →
        ∃ out, after = printed ++ out ∧ Evaluates program env e value out
  | .number v, printed, value, after, h => by
    simp only [evalWith, Evaluation.value.injEq] at h
    obtain ⟨rfl, rfl⟩ := h
    exact ⟨[], by simp, .number env v⟩
  | .var name, printed, value, after, h => by
    simp only [evalWith] at h
    split at h
    · next v found =>
      simp only [Evaluation.value.injEq] at h
      obtain ⟨rfl, rfl⟩ := h
      exact ⟨[], by simp, .var found⟩
    · cases h
  | .binary op left right, printed, value, after, h => by
    simp only [evalWith] at h
    obtain ⟨a, _, first, h⟩ := Evaluation.andThen_eq_value h
    obtain ⟨b, _, second, h⟩ := Evaluation.andThen_eq_value h
    obtain ⟨outLeft, rfl, evalLeft⟩ := evaluates_of_evalWith sound left first
    obtain ⟨outRight, rfl, evalRight⟩ := evaluates_of_evalWith sound right second
    split at h
    · next fits =>
      simp only [Evaluation.value.injEq] at h
      obtain ⟨rfl, rfl⟩ := h
      exact ⟨outLeft ++ outRight, by simp, .binary evalLeft evalRight fits⟩
    · cases h
  | .conditional left right whenEqual otherwise, printed, value, after, h => by
    simp only [evalWith] at h
    obtain ⟨a, _, first, h⟩ := Evaluation.andThen_eq_value h
    obtain ⟨b, _, second, h⟩ := Evaluation.andThen_eq_value h
    obtain ⟨outLeft, rfl, evalLeft⟩ := evaluates_of_evalWith sound left first
    obtain ⟨outRight, rfl, evalRight⟩ := evaluates_of_evalWith sound right second
    split at h
    · next equal =>
      subst equal
      obtain ⟨out, rfl, evalBranch⟩ := evaluates_of_evalWith sound whenEqual h
      exact ⟨outLeft ++ outRight ++ out, by simp, .equal evalLeft evalRight evalBranch⟩
    · next differ =>
      obtain ⟨out, rfl, evalBranch⟩ := evaluates_of_evalWith sound otherwise h
      exact ⟨outLeft ++ outRight ++ out, by simp, .unequal evalLeft evalRight differ evalBranch⟩
  | .call name args, printed, value, after, h => by
    unfold evalWith at h
    split at h
    · next isPrint =>
      subst isPrint
      split at h
      · next arg =>
        obtain ⟨v, _, first, h⟩ := Evaluation.andThen_eq_value h
        obtain ⟨out, rfl, evalArg⟩ := evaluates_of_evalWith sound arg first
        simp only [Evaluation.value.injEq] at h
        obtain ⟨rfl, rfl⟩ := h
        exact ⟨out ++ [v], by simp, .print evalArg⟩
      · cases h
    · next declared =>
      split at h
      · next function found =>
        obtain ⟨values, _, first, h⟩ := Evaluation.andThen_eq_value h
        obtain ⟨outArgs, rfl, evalArgs⟩ := evaluatesArgs_of_evalArgsWith sound args first
        split at h
        · next arity =>
          obtain ⟨out, rfl, evalBody⟩ := sound h
          exact ⟨outArgs ++ out, by simp, .call declared found evalArgs arity evalBody⟩
        · cases h
      · cases h

theorem evaluatesArgs_of_evalArgsWith (sound : calls.Sound program) :
    ∀ (args : List Expr) {printed values after : List Int32},
      evalArgsWith program calls env args printed = .value values after →
        ∃ out, after = printed ++ out ∧ EvaluatesArgs program env args values out
  | [], printed, values, after, h => by
    simp only [evalArgsWith, Evaluation.value.injEq] at h
    obtain ⟨rfl, rfl⟩ := h
    exact ⟨[], by simp, .nil env⟩
  | arg :: args, printed, values, after, h => by
    simp only [evalArgsWith] at h
    obtain ⟨others, _, first, h⟩ := Evaluation.andThen_eq_value h
    obtain ⟨v, _, second, h⟩ := Evaluation.andThen_eq_value h
    obtain ⟨outArgs, rfl, evalArgs⟩ := evaluatesArgs_of_evalArgsWith sound args first
    obtain ⟨out, rfl, evalArg⟩ := evaluates_of_evalWith sound arg second
    simp only [Evaluation.value.injEq] at h
    obtain ⟨rfl, rfl⟩ := h
    exact ⟨outArgs ++ out, by simp, .cons evalArgs evalArg⟩

end

end Expr

theorem Program.sound_calls (program : Program) (fuel : Nat) :
    (program.calls fuel).Sound program := by
  induction fuel with
  | zero => intro _ _ _ _ _ h; cases h
  | succ fuel ih =>
    intro function values printed value after h
    exact Expr.evaluates_of_evalWith ih function.body h

theorem Program.runsStatements_of_run {fuel : Nat} {statements : List Expr}
    {printed after : List Int32}
    (h : program.runStatements fuel statements printed = .value () after) :
    ∃ out, after = printed ++ out ∧ RunsStatements program statements out := by
  induction statements generalizing printed with
  | nil =>
    simp only [runStatements, Evaluation.value.injEq, true_and] at h
    exact ⟨[], by simp [h], .nil⟩
  | cons statement statements ih =>
    simp only [runStatements] at h
    obtain ⟨value, _, first, h⟩ := Evaluation.andThen_eq_value h
    obtain ⟨out, rfl, evalFirst⟩ :=
      Expr.evaluates_of_evalWith (program.sound_calls fuel) statement first
    obtain ⟨outs, rfl, others⟩ := ih h
    exact ⟨out ++ outs, by simp, .cons evalFirst others⟩

/-- A program that the interpreter runs to its end runs to its end. -/
theorem Program.runs_of_run {fuel : Nat} {out : List Int32} (h : program.run fuel = .value () out) :
    program.Runs out := by
  obtain ⟨printed, rfl, runs⟩ := Program.runsStatements_of_run h
  exact runs

end Sound

/-! ## Values of the relation

Every derivation is finite, so some number of open calls is enough for it, and so is any larger
one. -/

mutual

theorem Evaluates.exists_fuel {program : Program} :
    ∀ {env : Environment} {e : Expr} {value : Int32} {out : List Int32},
      Evaluates program env e value out → ∃ fuel, ∀ more, fuel ≤ more → ∀ printed,
        e.evalWith program (program.calls more) env printed = .value value (printed ++ out)
  | _, _, _, _, .number _ _ => ⟨0, fun _ _ printed => by simp [Expr.evalWith]⟩
  | _, _, _, _, .var found => ⟨0, fun _ _ printed => by simp [Expr.evalWith, found]⟩
  | _, _, _, _, .binary evalLeft evalRight fits => by
    obtain ⟨forLeft, left⟩ := evalLeft.exists_fuel
    obtain ⟨forRight, right⟩ := evalRight.exists_fuel
    refine ⟨max forLeft forRight, fun more enough printed => ?_⟩
    simp [Expr.evalWith, left more (by omega), right more (by omega), fits]
  | _, _, _, _, .equal evalLeft evalRight evalBranch => by
    obtain ⟨forLeft, left⟩ := evalLeft.exists_fuel
    obtain ⟨forRight, right⟩ := evalRight.exists_fuel
    obtain ⟨forBranch, branch⟩ := evalBranch.exists_fuel
    refine ⟨max (max forLeft forRight) forBranch, fun more enough printed => ?_⟩
    simp [Expr.evalWith, left more (by omega), right more (by omega), branch more (by omega)]
  | _, _, _, _, .unequal evalLeft evalRight differ evalBranch => by
    obtain ⟨forLeft, left⟩ := evalLeft.exists_fuel
    obtain ⟨forRight, right⟩ := evalRight.exists_fuel
    obtain ⟨forBranch, branch⟩ := evalBranch.exists_fuel
    refine ⟨max (max forLeft forRight) forBranch, fun more enough printed => ?_⟩
    simp [Expr.evalWith, left more (by omega), right more (by omega), differ,
      branch more (by omega)]
  | _, _, _, _, .print evalArg => by
    obtain ⟨fuel, arg⟩ := evalArg.exists_fuel
    refine ⟨fuel, fun more enough printed => ?_⟩
    simp [Expr.evalWith, arg more enough]
  | _, _, _, _, .call declared found evalArgs arity evalBody => by
    obtain ⟨forArgs, args⟩ := evalArgs.exists_fuel
    obtain ⟨forBody, body⟩ := evalBody.exists_fuel
    refine ⟨max forArgs (forBody + 1), fun more enough printed => ?_⟩
    -- the call itself is one of the open ones
    obtain ⟨fewer, rfl⟩ : ∃ fewer, more = fewer + 1 := ⟨more - 1, by omega⟩
    rw [Expr.evalWith_call _ _ declared found, args (fewer + 1) (by omega),
      Evaluation.andThen_value, if_pos arity, Program.calls, body fewer (by omega),
      List.append_assoc]

theorem EvaluatesArgs.exists_fuel {program : Program} :
    ∀ {env : Environment} {args : List Expr} {values out : List Int32},
      EvaluatesArgs program env args values out → ∃ fuel, ∀ more, fuel ≤ more → ∀ printed,
        Expr.evalArgsWith program (program.calls more) env args printed =
          .value values (printed ++ out)
  | _, _, _, _, .nil _ => ⟨0, fun _ _ printed => by simp [Expr.evalArgsWith]⟩
  | _, _, _, _, .cons evalArgs evalArg => by
    obtain ⟨forArgs, args⟩ := evalArgs.exists_fuel
    obtain ⟨forArg, arg⟩ := evalArg.exists_fuel
    refine ⟨max forArgs forArg, fun more enough printed => ?_⟩
    simp [Expr.evalArgsWith, args more (by omega), arg more (by omega)]

end

theorem RunsStatements.exists_fuel {program : Program} {statements : List Expr} {out : List Int32}
    (runs : RunsStatements program statements out) : ∃ fuel, ∀ more, fuel ≤ more → ∀ printed,
      program.runStatements more statements printed = .value () (printed ++ out) := by
  induction runs with
  | nil => exact ⟨0, fun _ _ printed => by simp [Program.runStatements]⟩
  | cons first _ ih =>
    obtain ⟨forFirst, first⟩ := first.exists_fuel
    obtain ⟨forOthers, others⟩ := ih
    refine ⟨max forFirst forOthers, fun more enough printed => ?_⟩
    simp [Program.runStatements, first more (by omega), others more (by omega)]

/-- A program runs to its end exactly when the interpreter finds that it does. -/
theorem Program.runs_iff_exists_run {program : Program} {out : List Int32} :
    program.Runs out ↔ ∃ fuel, program.run fuel = .value () out := by
  constructor
  · intro runs
    obtain ⟨fuel, found⟩ := RunsStatements.exists_fuel runs
    exact ⟨fuel, found fuel (Nat.le_refl fuel) []⟩
  · rintro ⟨fuel, found⟩
    exact Program.runs_of_run found

end FunMips
