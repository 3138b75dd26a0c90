import FunMips.Proofs.Assembly.Slots
import FunMips.Proofs.Frame.Validity

/-!
# Displacements

Stores, loads and additions to the stack pointer hold a number of bytes that has to fit in 16 bits.
The compiler finds it from a count of words, in arithmetic that could cut off or wrap. Which counts
these are shows when the arithmetic is left open: whatever a count comes out as, every number in the
code is a fixed one or comes from a count of words within one frame (`Program.exists_counted`). The
frames that are recorded are small enough for all of the arithmetic to be exact.
-/

namespace FunMips

/-- The operand is fixed, or found from a count of words that is not larger than a frame. -/
def Counted (words : Nat → Int32) (operand : Int32) : Prop :=
  operand = 0 ∨ operand = -4 ∨
    ∃ count ≤ maxFrameWords, operand = words count ∨ operand = -words count

/-- Exact arithmetic finds whole words, less than 2 ^ 15 bytes. -/
theorem Counted.bounds {operand : Int32} (counted : Counted wordBytes operand) :
    4 ∣ operand.toInt ∧ -32764 ≤ operand.toInt ∧ operand.toInt ≤ 32764 := by
  obtain rfl | rfl | ⟨count, small, rfl | rfl⟩ := counted
  · decide
  · decide
  · rw [toInt_wordBytes small]
    unfold maxFrameWords at small
    omega
  · rw [toInt_neg_wordBytes small]
    unfold maxFrameWords at small
    omega

/-- So is every number of bytes in the code. -/
def CountedIn (words : Nat → Int32) (code : List Instruction) : Prop :=
  ∀ instruction ∈ code, ∀ operand ∈ instruction.displacement?, Counted words operand

theorem CountedIn.append {words : Nat → Int32} {code more : List Instruction}
    (first : CountedIn words code) (second : CountedIn words more) :
    CountedIn words (code ++ more) :=
  List.forall_mem_append.2 ⟨first, second⟩

theorem countedIn_of_none {words : Nat → Int32} {code : List Instruction}
    (none : ∀ instruction ∈ code, instruction.displacement? = none) : CountedIn words code := by
  intro instruction member operand found
  rw [none instruction member] at found
  cases found

namespace Emitter

variable {ε : Type} {emitter : Emitter ε} {params tempSlots : Nat} {Slots : Nat → Prop}
variable {code : List Instruction} {frame : Frame}

theorem Uses.countedIn (uses : emitter.Uses params tempSlots Slots code)
    (few : params ≤ maxFrameWords) (small : ∀ slot, Slots slot → slot ≤ maxFrameWords) :
    CountedIn emitter.words code := by
  intro instruction member operand found
  cases uses.each instruction member with
  | park inside | unpark inside =>
    cases found
    exact .inr (.inr ⟨_, small _ inside, .inr rfl⟩)
  | param inside =>
    cases found
    exact .inr (.inr ⟨_, Nat.le_trans inside few, .inl rfl⟩)
  | push register =>
    cases found
    exact .inl rfl
  | pushed =>
    cases found
    exact .inr (.inl rfl)
  | other none =>
    rw [none] at found
    cases found

theorem countedIn_openFrame (small : frame.words ≤ maxFrameWords) :
    CountedIn emitter.words (emitter.openFrame frame) := by
  have slots : frame.tempSlots ≤ maxFrameWords := by
    unfold Frame.words at small
    omega
  have saved : emitter.Uses 0 0 (fun _ => False) (pushCode .ra) := .pushCode .ra
  have pushed := saved.countedIn (Nat.zero_le _) fun _ => False.elim
  refine CountedIn.append (List.forall_mem_cons.2 ⟨?_, pushed⟩) ?_
  · rintro operand ⟨⟩
  · split
    · refine List.forall_mem_singleton.2 ?_
      rintro operand ⟨⟩
      exact .inr (.inr ⟨_, slots, .inr rfl⟩)
    · exact List.forall_mem_nil _

theorem countedIn_closeFrame (small : frame.words ≤ maxFrameWords) :
    CountedIn emitter.words (emitter.closeFrame frame) := by
  unfold CountedIn closeFrame
  simp only [List.forall_mem_cons]
  refine ⟨?_, ?_, ?_, ?_, List.forall_mem_nil _⟩
  · rintro operand ⟨⟩
    exact .inl rfl
  · rintro operand ⟨⟩
    exact .inr (.inr ⟨_, small, .inl rfl⟩)
  · rintro operand ⟨⟩
    exact .inl rfl
  · rintro operand ⟨⟩

end Emitter

/-! ## Programs -/

section Walk

variable {ε : Type} {emitter : Emitter ε} {program : Program}

/-- An expression that fits in its frame is emitted, and its numbers are counted. -/
theorem Expr.exists_counted {scope : Scope} {e : Expr} {tempSlots : Nat} (labels : LabelSupply)
    (names : e.Scoped program scope.params) (few : scope.params.length ≤ maxFrameWords)
    (room : e.temps ≤ tempSlots) (small : tempSlots ≤ maxFrameWords)
    (asserted : ∀ slot ≤ tempSlots, emitter.assertSlot slot tempSlots = .ok ()) :
    ∃ code rest, e.emit emitter program.frames scope tempSlots 0 labels = .ok (code, rest) ∧
      CountedIn emitter.words code := by
  obtain ⟨code, rest, emitted⟩ := exists_emit e labels 0 ((check_eq_ok_iff e).2 names)
    fun slot _ inside => asserted slot (by omega)
  have uses := uses_of_emit e emitted
  exact ⟨code, rest, emitted, uses.countedIn few fun slot inside => by omega⟩

/-- So are statements, with the functions between them put off. -/
theorem TopLevel.exists_counted {tempSlots : Nat} (decls : List Decl) (labels : LabelSupply)
    (names : ∀ e ∈ decls.filterMap Decl.statement?, e.Scoped program [])
    (room : Expr.maxTemps (decls.filterMap Decl.statement?) ≤ tempSlots)
    (small : tempSlots ≤ maxFrameWords)
    (asserted : ∀ slot ≤ tempSlots, emitter.assertSlot slot tempSlots = .ok ()) :
    ∃ top rest, emit emitter program.frames tempSlots decls labels = .ok (top, rest) ∧
      CountedIn emitter.words top.code ∧ top.pending = decls.filterMap Decl.function? := by
  induction decls generalizing labels with
  | nil => exact ⟨_, labels, rfl, List.forall_mem_nil _, rfl⟩
  | cons decl decls ih =>
    cases decl with
    | function f =>
      obtain ⟨later, rest, emitted, counted, pending⟩ := ih labels names room
      refine ⟨{ later with pending := f :: later.pending }, rest, ?_, counted,
        congrArg (f :: ·) pending⟩
      rw [emit, Emit.bind_apply, emitted]
      rfl
    | statement e =>
      simp only [List.filterMap_cons, Decl.statement?, Expr.maxTemps] at names room
      obtain ⟨inHere, inLater⟩ := List.forall_mem_cons.1 names
      obtain ⟨here, between, onHere, countedHere⟩ :
          ∃ code rest, e.emit emitter program.frames .topLevel tempSlots 0 labels =
            .ok (code, rest) ∧ CountedIn emitter.words code :=
        Expr.exists_counted labels inHere (Nat.zero_le _) (by omega) small asserted
      obtain ⟨later, rest, onLater, countedLater, pending⟩ := ih between inLater (by omega)
      refine ⟨{ later with code := here ++ later.code }, rest, ?_, countedHere.append countedLater,
        pending⟩
      rw [emit, Emit.bind_apply, onHere, ok_bind, Emit.bind_apply, onLater]
      rfl

section Functions

variable (declarable : program.Declarable)
variable (asserted : ∀ slot tempSlots, slot ≤ tempSlots →
  emitter.assertSlot slot tempSlots = .ok ())

include declarable asserted

theorem Function.exists_counted {function : Function} (labels : LabelSupply)
    (member : function ∈ program.functions)
    (names : function.body.Scoped program function.params) :
    ∃ code rest, function.emit emitter program.frames labels = .ok (code, rest) ∧
      CountedIn emitter.words code := by
  have small : (Frame.ofFunction function).words ≤ maxFrameWords :=
    (declarable.functions function member).words
  have words : (Frame.ofFunction function).words =
      function.params.length + function.body.temps + 2 := rfl
  have recorded : program.frames.lookup function.name = .ok (Frame.ofFunction function) := by
    rw [FrameTable.lookup, program.get?_frames, declarable.function?_eq member]
    rfl
  obtain ⟨body, rest, emitted, counted⟩ :
      ∃ code rest, function.body.emit emitter program.frames (.body function) function.body.temps 0
        labels = .ok (code, rest) ∧ CountedIn emitter.words code := by
    refine Expr.exists_counted labels names ?_ (Nat.le_refl _) (by omega) (asserted · _)
    show function.params.length ≤ maxFrameWords
    omega
  have entry : CountedIn emitter.words [.label (entryLabel function.name)] :=
    countedIn_of_none (List.forall_mem_singleton.2 rfl)
  refine ⟨_, rest, ?_, ((entry.append (Emitter.countedIn_openFrame small)).append counted).append
    (Emitter.countedIn_closeFrame small)⟩
  rw [emit, recorded]
  exact bind_eq_ok_iff.2 ⟨_, emitted, rfl⟩

theorem Function.exists_counted_all (functions : List Function) (labels : LabelSupply)
    (members : ∀ function ∈ functions, function ∈ program.functions)
    (names : ∀ function ∈ functions, function.body.Scoped program function.params) :
    ∃ code rest, emitAll emitter program.frames functions labels = .ok (code, rest) ∧
      CountedIn emitter.words code := by
  induction functions generalizing labels with
  | nil => exact ⟨_, labels, rfl, List.forall_mem_nil _⟩
  | cons function functions ih =>
    obtain ⟨member, others⟩ := List.forall_mem_cons.1 members
    obtain ⟨inBody, inOthers⟩ := List.forall_mem_cons.1 names
    obtain ⟨here, between, onHere, countedHere⟩ :=
      exists_counted declarable asserted labels member inBody
    obtain ⟨later, rest, onLater, countedLater⟩ := ih between others inOthers
    refine ⟨here ++ later, rest, ?_, countedHere.append countedLater⟩
    rw [emitAll, Emit.bind_apply, onHere, ok_bind, Emit.bind_apply, onLater]
    rfl

/-- A program is emitted, and all its numbers are counted, whatever the counts come out as. -/
theorem Program.exists_counted (names : program.Scoped) :
    ∃ assembly, program.emit emitter program.frames = .ok assembly ∧
      CountedIn emitter.words assembly.instructions := by
  have small : (Frame.ofStatements program.statements).words ≤ maxFrameWords := declarable.main
  have words : (Frame.ofStatements program.statements).words =
      0 + Expr.maxTemps program.statements + 2 := rfl
  obtain ⟨top, between, onTop, countedTop, pending⟩ :
      ∃ top rest, TopLevel.emit emitter program.frames (Expr.maxTemps program.statements)
        program.decls {} = .ok (top, rest) ∧ CountedIn emitter.words top.code ∧
        top.pending = program.functions :=
    TopLevel.exists_counted program.decls {} names.statements (Nat.le_refl _) (by omega)
      (asserted · _)
  obtain ⟨bodies, rest, onBodies, countedBodies⟩ := Function.exists_counted_all declarable asserted
    program.functions between (fun _ member => member) names.bodies
  have start : CountedIn emitter.words preamble := countedIn_of_none (by decide)
  have exit : CountedIn emitter.words exitCode := countedIn_of_none (by decide)
  refine ⟨_, ?_, (((start.append (Emitter.countedIn_openFrame small)).append countedTop).append
    exit).append countedBodies⟩
  rw [← pending] at onBodies
  unfold emit
  exact bind_eq_ok_iff.2 ⟨_, rfl, bind_eq_ok_iff.2 ⟨_, onTop, bind_eq_ok_iff.2 ⟨_, onBodies, rfl⟩⟩⟩

end Functions

end Walk

namespace Program

variable {program : Program}

theorem addiu_mem_wideProgram (width count : Nat) :
    .addiu .sp .sp (wordBytes (width + count + 2)) ∈
      (wideProgram width count).assembly.instructions := by
  have closing : .addiu .sp .sp (wordBytes (width + count + 2)) ∈
      (Frame.ofFunction (wideFunction width count)).closeCode := by
    simp [Frame.closeCode, words_wideFunction]
  have functions : (wideProgram width count).functions = [wideFunction width count] := rfl
  simp only [assembly, Assembly.ofParts, functions, List.map_cons, Function.allCode, Function.code]
  simp only [List.mem_append, List.mem_cons]
  exact .inr (.inl (.inr closing))

theorem scoped_sumOfOnes (program : Program) (params : List String) (count : Nat) :
    (sumOfOnes count).Scoped program params := by
  induction count with
  | zero => trivial
  | succ count ih => exact ⟨trivial, ih⟩

theorem scoped_wideProgram (width count : Nat) : (wideProgram width count).Scoped where
  statements := List.forall_mem_nil _
  bodies := List.forall_mem_singleton.2 (scoped_sumOfOnes _ _ count)

/-- Every number of bytes in the code of a program is fixed or found from a count of words that is
at most that of the largest frame. This is so whatever `words` makes of a count, and only what it
makes of these counts has an effect on the code. Up to there the arithmetic neither cuts off nor
wraps, so the number in every store, load and addition of a fixed number is the one that is meant: a
multiple of 4 that fits in 16 bits with its sign. -/
theorem displacements_of_assemble {table : FrameTable} {assembly : Assembly}
    (sized : FrameTable.ofProgram program = .ok table)
    (assembled : program.assemble table = .ok assembly) :
    (∀ words : Nat → Int32, ∃ emitted,
      program.emit { Emitter.plain with words } table = .ok emitted ∧
      (∀ instruction ∈ emitted.instructions, ∀ operand ∈ instruction.displacement?,
        operand = 0 ∨ operand = -4 ∨
          ∃ count ≤ maxFrameWords, operand = words count ∨ operand = -words count) ∧
      ((∀ count ≤ maxFrameWords, words count = wordBytes count) → emitted = assembly)) ∧
    (∀ count ≤ maxFrameWords, (Int32.ofNat count).toInt = count ∧
      (wordBytes count).toInt = 4 * count ∧ (-wordBytes count).toInt = -(4 * count)) ∧
    ∀ instruction ∈ assembly.instructions, ∀ operand ∈ instruction.displacement?,
      4 ∣ operand.toInt ∧ -32764 ≤ operand.toInt ∧ operand.toInt ≤ 32764 := by
  obtain ⟨declarable, rfl⟩ := FrameTable.ofProgram_eq_ok_iff.1 sized
  obtain ⟨names, rfl⟩ := (assemble_frames_eq_ok_iff declarable).1 assembled
  refine ⟨fun words => ?_, fun count small => ?_, fun instruction member operand found => ?_⟩
  · obtain ⟨emitted, here, counted⟩ :
        ∃ emitted, program.emit { Emitter.plain with words } program.frames = .ok emitted ∧
          CountedIn words emitted.instructions :=
      exists_counted declarable (fun _ _ _ => rfl) names
    refine ⟨emitted, here, counted, fun agrees => ?_⟩
    exact Except.ok.inj (here.symm.trans (emit_frames ⟨agrees, fun _ _ _ => rfl⟩ declarable names))
  · refine ⟨Int32.toInt_ofNat_of_lt ?_, toInt_wordBytes small, toInt_neg_wordBytes small⟩
    unfold maxFrameWords at small
    omega
  · obtain ⟨emitted, here, counted⟩ :
        ∃ emitted, program.emit .plain program.frames = .ok emitted ∧
          CountedIn wordBytes emitted.instructions :=
      exists_counted declarable (fun _ _ _ => rfl) names
    cases here.symm.trans assembled
    exact (counted instruction member operand found).bounds

/-- The bound is met by the largest frame, which is taken off the stack in one step. -/
theorem displacements_wideProgram :
    FrameTable.ofProgram (wideProgram 7934 255) = .ok (wideProgram 7934 255).frames ∧
      (wideProgram 7934 255).assemble (wideProgram 7934 255).frames =
        .ok (wideProgram 7934 255).assembly ∧
      (∀ words : Nat → Int32, ∃ emitted,
        (wideProgram 7934 255).emit { Emitter.plain with words } (wideProgram 7934 255).frames =
          .ok emitted ∧
        ∀ instruction ∈ emitted.instructions, ∀ operand ∈ instruction.displacement?,
          operand = 0 ∨ operand = -4 ∨
            ∃ count ≤ maxFrameWords, operand = words count ∨ operand = -words count) ∧
      .addiu .sp .sp 32764 ∈ (wideProgram 7934 255).assembly.instructions ∧
      ∀ instruction ∈ (wideProgram 7934 255).assembly.instructions,
        ∀ operand ∈ instruction.displacement?,
          4 ∣ operand.toInt ∧ -32764 ≤ operand.toInt ∧ operand.toInt ≤ 32764 := by
  have declarable : (wideProgram 7934 255).Declarable := declarable_wideProgram (by decide)
  have sized := FrameTable.ofProgram_eq_ok_iff.2 ⟨declarable, rfl⟩
  have assembled := (assemble_frames_eq_ok_iff declarable).2 ⟨scoped_wideProgram 7934 255, rfl⟩
  obtain ⟨counted, -, bounds⟩ := displacements_of_assemble sized assembled
  refine ⟨sized, assembled, fun words => ?_, addiu_mem_wideProgram 7934 255, bounds⟩
  obtain ⟨emitted, here, operands, -⟩ := counted words
  exact ⟨emitted, here, operands⟩

end Program

end FunMips
