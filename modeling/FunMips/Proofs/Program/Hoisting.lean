import FunMips.Proofs.Assembly.Emission

/-!
# Functions and statements in any order

The declarations of a program are walked through twice in the order of the source, to size the
frames and to emit the code. Both walks come out as if the functions and the statements had been
two lists to begin with (`FrameTable.ofProgram_eq`, `Program.assemble_eq`): what a walk keeps of the
functions does not depend on the statements between them, nor the other way round, and the labels
of bodies are taken after all those of statements. So functions can be declared anywhere
(`Program.same_frames_and_code`).
-/

namespace FunMips

/-! ## Sizing the frames -/

namespace FrameTable

/-- A walk records the functions it meets, and finds the slots of the statements between them. -/
theorem foldlM_add (decls : List Decl) (survey : Survey) :
    decls.foldlM Survey.add survey =
      (decls.filterMap Decl.function?).foldlM declare survey.table >>= fun table =>
        .ok ⟨table, max survey.topSlots (Expr.maxTemps (decls.filterMap Decl.statement?))⟩ := by
  induction decls generalizing survey with
  | nil => simp [Expr.maxTemps, pure, Except.pure]
  | cons decl decls ih =>
    cases decl with
    | function f =>
      simp only [List.foldlM_cons, List.filterMap_cons, Decl.function?, Decl.statement?, Survey.add,
        bind_assoc]
      cases survey.table.declare f with
      | error diagnostic => rfl
      | ok table => exact ih { survey with table }
    | statement e =>
      simp only [List.foldlM_cons, List.filterMap_cons, Decl.function?, Decl.statement?, Survey.add,
        Expr.maxTemps, ← Nat.max_assoc]
      exact ih { survey with topSlots := max survey.topSlots e.temps }

theorem ofProgram_eq (program : Program) :
    ofProgram program = program.functions.foldlM declare {} >>= fun table =>
      (Frame.ofStatements program.statements).checked >>= fun main =>
        .ok { table with main? := some main } := by
  unfold ofProgram
  rw [foldlM_add, bind_assoc]
  simp only [ok_bind, Nat.zero_max]
  rfl

end FrameTable

/-! ## Emitting the code -/

section Emission

variable {ε : Type} {emitter : Emitter ε} {table : FrameTable}

/-- A walk emits the statements as if there were no functions between them, which it puts off. -/
theorem TopLevel.emit_eq {tempSlots : Nat} (decls : List Decl) (labels : LabelSupply)
    (serves : emitter.Serves 0 tempSlots 0 (Expr.maxTemps (decls.filterMap Decl.statement?))) :
    emit emitter table tempSlots decls labels =
      emitter.answer ((decls.filterMap Decl.statement?).forM (Expr.check table .topLevel)) >>=
        fun _ => .ok
          ({ code := Expr.statementsCode labels (decls.filterMap Decl.statement?)
             pending := decls.filterMap Decl.function? },
            labels.skip (Expr.totalConditionals (decls.filterMap Decl.statement?))) := by
  induction decls generalizing labels with
  | nil => rfl
  | cons decl decls ih =>
    cases decl with
    | function f =>
      have later (labels : LabelSupply) := ih labels serves
      simp only [emit, later, List.filterMap_cons, Decl.function?, Decl.statement?,
        Emit.bind_apply, Emit.pure_apply, bind_assoc, ok_bind]
    | statement e =>
      simp only [List.filterMap_cons, Decl.function?, Decl.statement?, Expr.maxTemps] at serves ⊢
      have here : e.emit emitter table .topLevel tempSlots 0 labels = _ :=
        Expr.emit_eq e labels 0 (serves.mono (by omega) (by omega))
      have later (labels : LabelSupply) := ih labels (serves.mono (by omega) (Nat.le_max_right _ _))
      change _ = emitter.answer (e.check table .topLevel >>= fun _ =>
        (decls.filterMap Decl.statement?).forM (Expr.check table .topLevel)) >>= _
      simp only [emit, here, later, Emitter.answer_bind, Emit.bind_apply, Emit.pure_apply,
        bind_assoc, ok_bind, LabelSupply.skip, Nat.add_assoc, Expr.totalConditionals]
      rfl

namespace Function

theorem emit_eq {function : Function} (labels : LabelSupply)
    (serves : ∀ frame, table.lookup function.name = .ok frame →
      emitter.ServesFrame frame function.params.length function.body.temps) :
    function.emit emitter table labels =
      emitter.answer (function.checkedFrame table) >>= fun frame =>
        .ok (function.code labels frame, labels.skip function.body.conditionals) := by
  unfold emit checkedFrame
  cases found : table.lookup function.name with
  | error diagnostic => rfl
  | ok frame =>
    have serves := serves frame found
    have body : function.body.emit emitter table (.body function) frame.tempSlots 0 labels = _ :=
      Expr.emit_eq function.body labels 0 (serves.mono (by omega) (by omega))
    simp only [Emit.bind_apply, Emit.lift_apply, Emit.pure_apply, Emitter.answer_ok, ok_bind, body,
      Emitter.answer_bind, bind_assoc, serves.openFrame_eq, serves.closeFrame_eq]
    rfl

theorem emitAll_eq (functions : List Function) (labels : LabelSupply)
    (serves : ∀ function ∈ functions, ∀ frame, table.lookup function.name = .ok frame →
      emitter.ServesFrame frame function.params.length function.body.temps) :
    emitAll emitter table functions labels =
      emitter.answer (functions.mapM (checkedFrame table)) >>= fun frames =>
        .ok (allCode labels (functions.zip frames),
          labels.skip (Expr.totalConditionals (functions.map body))) := by
  induction functions generalizing labels with
  | nil => rfl
  | cons function functions ih =>
    obtain ⟨here, later⟩ := List.forall_mem_cons.1 serves
    have rest (labels : LabelSupply) := ih labels later
    simp only [emitAll, emit_eq labels here, rest, List.mapM_cons, Emitter.answer_bind,
      Emit.bind_apply, Emit.pure_apply, bind_assoc, ok_bind, LabelSupply.skip, Nat.add_assoc]
    rfl

end Function

/-- All names of the statements are checked, then those of the bodies, and the code is the same as
if they were checked before anything is emitted. -/
theorem Program.emit_eq {program : Program}
    (top : ∀ frame, table.main = .ok frame →
      emitter.ServesFrame frame 0 (Expr.maxTemps program.statements))
    (bodies : ∀ function ∈ program.functions, ∀ frame, table.lookup function.name = .ok frame →
      emitter.ServesFrame frame function.params.length function.body.temps) :
    program.emit emitter table = emitter.answer (table.main >>= fun main =>
      program.statements.forM (Expr.check table .topLevel) >>= fun _ =>
        program.functions.mapM (Function.checkedFrame table) >>= fun frames =>
          .ok (Assembly.ofParts main program.statements (program.functions.zip frames))) := by
  have first (count : Nat) : ({} : LabelSupply).skip count = ⟨count⟩ := by
    simp [LabelSupply.skip]
  unfold emit
  cases found : table.main with
  | error diagnostic => rfl
  | ok main =>
    have serves := top main found
    have statements : TopLevel.emit emitter table main.tempSlots program.decls {} = _ :=
      TopLevel.emit_eq program.decls {} serves.toServes
    have functions (labels : LabelSupply) :
        Function.emitAll emitter table (program.decls.filterMap Decl.function?) labels = _ :=
      Function.emitAll_eq program.functions labels bodies
    simp only [Emitter.answer_ok, ok_bind, statements, functions, first, serves.openFrame_eq,
      Emitter.answer_bind, bind_assoc]
    rfl

end Emission

theorem Program.assemble_eq (program : Program) (table : FrameTable) :
    program.assemble table = table.main >>= fun main =>
      program.statements.forM (Expr.check table .topLevel) >>= fun _ =>
        program.functions.mapM (Function.checkedFrame table) >>= fun frames =>
          .ok (Assembly.ofParts main program.statements (program.functions.zip frames)) := by
  refine (emit_eq (fun frame _ => ?_) fun function _ frame _ => ?_).trans (Emitter.answer_plain _)
  · exact Emitter.servesFrame_plain _ _ _
  · exact Emitter.servesFrame_plain _ _ _

/-- Two programs with the same functions and the same statements, each in the same order but put
together in any two ways, have the same frames or are refused for the same reason, and from any
frames the same code is emitted for them, or the same name is refused. -/
theorem Program.same_frames_and_code {program other : Program}
    (functions : program.functions = other.functions)
    (statements : program.statements = other.statements) :
    FrameTable.ofProgram program = FrameTable.ofProgram other ∧
      ∀ table, program.assemble table = other.assemble table := by
  refine ⟨?_, fun table => ?_⟩
  · rw [FrameTable.ofProgram_eq, FrameTable.ofProgram_eq, functions, statements]
  · rw [assemble_eq, assemble_eq, functions, statements]

/-- A function that picks one of its arguments. -/
def pick : Function where
  name := "pick"
  params := ["n", "a", "b"]
  body := .conditional (.var "n") (.number 0) (.var "a") (.var "b")

/-- Calls the function behind it, which calls the one in front. -/
def scattered : Program where
  decls :=
    [.function pick,
     .statement (.call "print" [.conditional (.call "both" []) (.number 3) (.number 1)
       (.binary .minus (.number 2) (.number 5))]),
     .function
      { name := "both"
        params := []
        body := .call "pick" [.number 0, .number 3, .number 4] },
     .statement (.call "pick" [.number 1, .number 2, .number 3])]

/-- The same with all functions behind the statements. -/
def gathered : Program where
  decls := scattered.statements.map .statement ++ scattered.functions.map .function

theorem same_frames_and_code_scattered :
    scattered ≠ gathered ∧
      ∃ table assembly, FrameTable.ofProgram scattered = .ok table ∧
        FrameTable.ofProgram gathered = .ok table ∧ scattered.assemble table = .ok assembly ∧
        gathered.assemble table = .ok assembly ∧
        .label "true_branch_1" ∈ assembly.instructions := by
  have functions : scattered.functions = gathered.functions := rfl
  have ⟨frames, code⟩ := Program.same_frames_and_code functions rfl
  exact ⟨by decide, _, _, rfl, frames.symm, rfl, (code _).symm, by decide⟩

end FunMips
