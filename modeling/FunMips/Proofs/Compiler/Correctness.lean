import FunMips.Proofs.Assembly.Layout

/-!
# Compiled programs behave like their source

For a program whose frames are sized and whose code is put together, a run of the code from its
first label, with any registers and any memory,

* ends having printed what the program prints, if the program runs to its end
  (`exits_of_runs`);
* ends only if the program runs to its end, and has then printed what the program prints
  (`runs_of_exits`);
* is safe at every moment, whether it ends or not (`safe_of_occurs`).

All three come from the one fact that the code follows the interpreter for every number of open
calls (`Program.follows`), since a run of the machine has at most one end.
-/

namespace FunMips

open Machine

section Compiled

variable {program : Program} {table : FrameTable} {assembly : Assembly}

/-- What it takes for code to be put together. -/
theorem Program.eq_assembly_of_ok (sized : FrameTable.ofProgram program = .ok table)
    (assembled : program.assemble table = .ok assembly) :
    program.Declarable ∧ program.Scoped ∧ assembly = program.assembly := by
  obtain ⟨declarable, rfl⟩ := FrameTable.ofProgram_eq_ok_iff.1 sized
  exact ⟨declarable, (Program.assemble_frames_eq_ok_iff declarable).1 assembled⟩

/-- A run that ends by the system call for it, as counted steps. -/
theorem Machine.Exits.exists_run {code : List Instruction} {start : State} {out : List Int}
    (exits : Exits code start out) :
    ∃ count last, Moment.run code count { state := start } = some last ∧
      step code last.state = .exit ∧ last.output = out := by
  obtain ⟨state, reaches, exit, printed⟩ := exits
  obtain ⟨count, last, reached, rfl⟩ := reaches.exists_run { state := start } rfl
  exact ⟨count, last, reached, exit, printed⟩

/-- The code of a program from its first label, with any registers and memory, ends having printed
what the program prints. -/
theorem exits_of_runs {out : List Int32} (sized : FrameTable.ofProgram program = .ok table)
    (assembled : program.assemble table = .ok assembly) (runs : program.Runs out) :
    ∃ position, assembly.instructions.idxOf? (.label mainName) = some position ∧
      ∀ registers memory, Exits assembly.instructions ⟨position, registers, memory, []⟩
        (out.map Int32.toInt) := by
  obtain ⟨declarable, names, rfl⟩ := Program.eq_assembly_of_ok sized assembled
  have start : program.assembly.instructions.idxOf? (.label mainName) = some 3 :=
    idxOf?_label (Program.nodup_labelsOf_assembly declarable names) rfl
  refine ⟨3, start, fun registers memory => ?_⟩
  obtain ⟨fuel, result⟩ := Program.runs_iff_exists_run.1 runs
  have starts : StartsAt program.assembly.instructions mainName ⟨3, registers, memory, []⟩ :=
    ⟨start, rfl⟩
  have follows := Program.follows declarable names starts fuel
  rw [result] at follows
  obtain ⟨count, last, run, ended⟩ := follows
  exact ⟨last.state, reaches_of_run run.reached, ended.exit.2, ended.output⟩

/-- Prints the numbers from two down to one. -/
def countdown : Program where
  decls :=
    [.function
      { name := "down"
        params := ["n"]
        body := .conditional (.var "n") (.number 0) (.number 0)
          (.binary .plus (.call "print" [.var "n"])
            (.call "down" [.binary .minus (.var "n") (.number 1)])) },
     .statement (.call "down" [.number 2])]

theorem exits_countdown :
    FrameTable.ofProgram countdown = .ok countdown.frames ∧
      countdown.assemble countdown.frames = .ok countdown.assembly ∧ countdown.Runs [2, 1] ∧
      ∃ position, countdown.assembly.instructions.idxOf? (.label mainName) = some position ∧
        ∀ registers memory,
          Exits countdown.assembly.instructions ⟨position, registers, memory, []⟩ [2, 1] :=
  have runs : countdown.Runs [2, 1] := Program.runs_iff_exists_run.2 ⟨3, rfl⟩
  ⟨rfl, rfl, runs, exits_of_runs rfl rfl runs⟩

/-! ## Runs that end -/

section Ends

variable {start : State}

/-- A run that ends by the system call for it has no other end. -/
theorem Machine.Moment.end_unique {code : List Instruction} {moment last other : Moment}
    {count more : Nat} (reached : moment.run code count = some last)
    (exit : step code last.state = .exit) (reached' : moment.run code more = some other)
    (ended : ∀ next, step code other.state ≠ .next next) : last = other :=
  run_end_unique reached (after_eq_none (by simp [exit])) reached' (after_eq_none ended)

theorem Program.not_exits_of_overflow (declarable : program.Declarable) (names : program.Scoped)
    (starts : StartsAt program.assembly.instructions mainName start) {fuel : Nat}
    {words : List Int32} (result : program.run fuel = .overflow words) (out : List Int) :
    ¬ Exits program.assembly.instructions start out := by
  intro exits
  obtain ⟨count, last, reached, exit, -⟩ := exits.exists_run
  have follows := Program.follows declarable names starts fuel
  rw [result] at follows
  obtain ⟨more, other, run, overflow, -⟩ := follows
  obtain rfl := Moment.end_unique reached exit run.reached (by simp [overflow.2])
  cases exit.symm.trans overflow.2

/-- Code that ends does so where the interpreter, with more open calls than there are steps, has
its end. -/
theorem Program.exists_run_of_exits (declarable : program.Declarable) (names : program.Scoped)
    (starts : StartsAt program.assembly.instructions mainName start) {out : List Int}
    (exits : Exits program.assembly.instructions start out) :
    ∃ fuel words, program.run fuel = .value () words ∧ out = words.map Int32.toInt := by
  obtain ⟨count, last, reached, exit, printed⟩ := exits.exists_run
  have follows := Program.follows declarable names starts (count + 1)
  cases result : program.run (count + 1) with
  | value _ words =>
    rw [result] at follows
    obtain ⟨more, other, run, ended⟩ := follows
    obtain rfl := Moment.end_unique reached exit run.reached (by simp [ended.exit.2])
    exact ⟨count + 1, words, result, printed.symm.trans ended.output⟩
  | overflow words =>
    exact absurd exits (Program.not_exits_of_overflow declarable names starts result out)
  | unfinished =>
    rw [result] at follows
    obtain ⟨more, other, run, enough⟩ := follows
    have past := run_eq_none reached (after_eq_none (by simp [exit])) enough
    cases past.symm.trans run.reached
  | stuck =>
    rw [result] at follows
    exact follows.elim

/-- Code that ends has printed what the program prints, and the code of a program that overflows
or runs for ever does not end. -/
theorem runs_of_exits (sized : FrameTable.ofProgram program = .ok table)
    (assembled : program.assemble table = .ok assembly)
    (starts : StartsAt assembly.instructions mainName start) :
    (∀ out, Exits assembly.instructions start out →
      ∃ words, program.Runs words ∧ out = words.map Int32.toInt) ∧
    (program.Overflows ∨ program.Diverges → ∀ out, ¬ Exits assembly.instructions start out) := by
  obtain ⟨declarable, names, rfl⟩ := Program.eq_assembly_of_ok sized assembled
  constructor
  · intro out exits
    obtain ⟨fuel, words, result, printed⟩ :=
      Program.exists_run_of_exits declarable names starts exits
    exact ⟨words, Program.runs_iff_exists_run.2 ⟨fuel, result⟩, printed⟩
  · rintro (⟨fuel, words, result⟩ | diverges) out exits
    · exact Program.not_exits_of_overflow declarable names starts result out exits
    · obtain ⟨fuel, words, result, -⟩ :=
        Program.exists_run_of_exits declarable names starts exits
      cases (diverges fuel).symm.trans result

/-- The largest word and one. -/
def tooLarge : Program where
  decls := [.statement (.binary .plus (.number 2147483647) (.number 1))]

theorem not_exits_tooLarge :
    FrameTable.ofProgram tooLarge = .ok tooLarge.frames ∧
      tooLarge.assemble tooLarge.frames = .ok tooLarge.assembly ∧
      StartsAt tooLarge.assembly.instructions mainName ⟨3, fun _ => 0, fun _ => 0, []⟩ ∧
      tooLarge.Overflows ∧
      ∀ out, ¬ Exits tooLarge.assembly.instructions ⟨3, fun _ => 0, fun _ => 0, []⟩ out :=
  have starts : StartsAt tooLarge.assembly.instructions mainName
    ⟨3, fun _ => 0, fun _ => 0, []⟩ := ⟨rfl, rfl⟩
  have overflows : tooLarge.Overflows := ⟨0, [], rfl⟩
  ⟨rfl, rfl, starts, overflows, (runs_of_exits rfl rfl starts).2 (.inl overflows)⟩

/-! ## Safety -/

/-- A run that ends where it is safe is safe at every moment. -/
theorem Machine.SafeRun.safe_of_run {code : List Instruction} {top : Int} {first last : Moment}
    {count : Nat} (run : SafeRun program code top count first last)
    (safe : Safe program code top last) (ended : ∀ next, step code last.state ≠ .next next)
    {earlier : Nat} {moment : Moment} (reached : first.run code earlier = some moment) :
    Safe program code top moment := by
  rcases Nat.lt_trichotomy earlier count with before | rfl | after
  · exact run.safe earlier before moment reached
  · cases run.reached.symm.trans reached
    exact safe
  · cases (run_eq_none run.reached (after_eq_none ended) after).symm.trans reached

/-- Every state that the code of a program reaches is that of a moment of the run, and every
moment of the run is safe. -/
theorem safe_of_occurs (sized : FrameTable.ofProgram program = .ok table)
    (assembled : program.assemble table = .ok assembly)
    (starts : StartsAt assembly.instructions mainName start) :
    (∀ last, Reaches assembly.instructions start last →
      ∃ moment, Occurs assembly.instructions start moment ∧ moment.state = last) ∧
    ∀ moment, Occurs assembly.instructions start moment →
      Safe program assembly.instructions (start.registers .sp) moment := by
  obtain ⟨declarable, names, rfl⟩ := Program.eq_assembly_of_ok sized assembled
  constructor
  · intro last reaches
    obtain ⟨count, moment, reached, equal⟩ := reaches.exists_run { state := start } rfl
    exact ⟨moment, occurs_of_run .start reached, equal⟩
  · intro moment occurs
    obtain ⟨count, reached⟩ := occurs.exists_run
    have follows := Program.follows declarable names starts (count + 1)
    cases result : program.run (count + 1) with
    | value _ words =>
      rw [result] at follows
      obtain ⟨more, last, run, ended⟩ := follows
      exact run.safe_of_run ended.safe (by simp [ended.exit.2]) reached
    | overflow words =>
      rw [result] at follows
      obtain ⟨more, last, run, overflow, safe⟩ := follows
      exact run.safe_of_run safe (by simp [overflow.2]) reached
    | unfinished =>
      rw [result] at follows
      obtain ⟨more, last, run, enough⟩ := follows
      exact run.safe count enough moment reached
    | stuck =>
      rw [result] at follows
      exact follows.elim

theorem safe_countdown :
    FrameTable.ofProgram countdown = .ok countdown.frames ∧
      countdown.assemble countdown.frames = .ok countdown.assembly ∧
      StartsAt countdown.assembly.instructions mainName ⟨3, fun _ => 0, fun _ => 0, []⟩ ∧
      ∀ moment, Occurs countdown.assembly.instructions ⟨3, fun _ => 0, fun _ => 0, []⟩ moment →
        Safe countdown countdown.assembly.instructions 0 moment :=
  have starts : StartsAt countdown.assembly.instructions mainName
    ⟨3, fun _ => 0, fun _ => 0, []⟩ := ⟨rfl, rfl⟩
  ⟨rfl, rfl, starts, (safe_of_occurs rfl rfl starts).2⟩

end Ends

end Compiled

end FunMips
