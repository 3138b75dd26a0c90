import FunMips.Proofs.Assembly.Branches
import FunMips.Proofs.Assembly.Execution

/-!
# Slots of frames

What the code of an expression does with its frame is read off the code itself, whatever the way in
which bytes are counted (`Emitter.Uses`). An operand that has to wait is parked in the first slot
that is not in use, and so the slots in which something is parked are exactly those that
`Expr.temps` counts (`Expr.uses_of_emit`): no store leaves the frame, and no slot is reserved in
vain. An emitter that asserts this of every slot emits the same code (`Program.emit_frames`).
-/

namespace FunMips

/-- The number of bytes in a store, a load or an addition of a fixed number. -/
def Instruction.displacement? : Instruction → Option Int32
  | .sw _ offset _ | .lw _ offset _ => some offset
  | .addiu _ _ value => some value
  | _ => none

/-- What an instruction of an expression is for, in a frame with that many parameters and where
`words` counts bytes: it stores an operand in one of the slots, loads it again, loads a parameter,
pushes something, or holds no number of bytes. -/
inductive FrameUse (words : Nat → Int32) (params : Nat) (Slots : Nat → Prop) : Instruction → Prop
  | park {slot : Nat} (inside : Slots slot) :
      FrameUse words params Slots (.sw .a0 (-words slot) .fp)
  | unpark {slot : Nat} (inside : Slots slot) :
      FrameUse words params Slots (.lw .t1 (-words slot) .fp)
  | param {index : Nat} (inside : index < params) :
      FrameUse words params Slots (.lw .a0 (words (index + 1)) .fp)
  | push (register : Register) : FrameUse words params Slots (.sw register 0 .sp)
  | pushed : FrameUse words params Slots (.addiu .sp .sp (-4))
  | other {instruction : Instruction} (none : instruction.displacement? = none) :
      FrameUse words params Slots instruction

theorem FrameUse.mono {words : Nat → Int32} {params : Nat} {Slots Others : Nat → Prop}
    {instruction : Instruction} (use : FrameUse words params Slots instruction)
    (more : ∀ slot, Slots slot → Others slot) : FrameUse words params Others instruction := by
  cases use with
  | park inside => exact .park (more _ inside)
  | unpark inside => exact .unpark (more _ inside)
  | param inside => exact .param inside
  | push register => exact .push register
  | pushed => exact .pushed
  | other none => exact .other none

theorem FrameUse.of_sw {words : Nat → Int32} {params : Nat} {Slots : Nat → Prop}
    {source : Register} {offset : Int32}
    (use : FrameUse words params Slots (.sw source offset .fp)) :
    ∃ slot, Slots slot ∧ offset = -words slot := by
  cases use with
  | park inside => exact ⟨_, inside, rfl⟩
  | other none => cases none

theorem FrameUse.of_lw {words : Nat → Int32} {params : Nat} {Slots : Nat → Prop}
    {target : Register} {offset : Int32}
    (use : FrameUse words params Slots (.lw target offset .fp)) :
    (target = .t1 ∧ ∃ slot, Slots slot ∧ offset = -words slot) ∨
      target = .a0 ∧ ∃ index < params, offset = words (index + 1) := by
  cases use with
  | unpark inside => exact .inl ⟨rfl, _, inside, rfl⟩
  | param inside => exact .inr ⟨rfl, _, inside, rfl⟩
  | other none => cases none

theorem BinOp.displacement?_instruction (op : BinOp) : op.instruction.displacement? = none := by
  cases op <;> rfl

namespace Emitter

variable {ε : Type}

/-- The code uses these slots of a frame, and every one of them for an operand; the assertion has
held for each. -/
structure Uses (emitter : Emitter ε) (params tempSlots : Nat) (Slots : Nat → Prop)
    (code : List Instruction) : Prop where
  each : ∀ instruction ∈ code, FrameUse emitter.words params Slots instruction
  all : ∀ slot, Slots slot →
    .sw .a0 (-emitter.words slot) .fp ∈ code ∧ .lw .t1 (-emitter.words slot) .fp ∈ code
  asserted : ∀ slot, Slots slot → emitter.assertSlot slot tempSlots = .ok ()

namespace Uses

variable {emitter : Emitter ε} {params tempSlots : Nat} {Slots Others : Nat → Prop}
variable {code more : List Instruction}

theorem congr (uses : emitter.Uses params tempSlots Slots code)
    (same : ∀ slot, Slots slot ↔ Others slot) : emitter.Uses params tempSlots Others code := by
  obtain rfl : Slots = Others := funext fun slot => propext (same slot)
  exact uses

/-- The stores next to the frame pointer go to the slots, and to each of them. -/
theorem sw_mem_iff (uses : emitter.Uses params tempSlots Slots code) {offset : Int32} :
    (∃ source, .sw source offset .fp ∈ code) ↔
      ∃ slot, Slots slot ∧ offset = -emitter.words slot := by
  constructor
  · rintro ⟨source, member⟩
    exact (uses.each _ member).of_sw
  · rintro ⟨slot, inside, rfl⟩
    exact ⟨.a0, (uses.all slot inside).1⟩

theorem of_none (none : ∀ instruction ∈ code, instruction.displacement? = none) :
    emitter.Uses params tempSlots (fun _ => False) code :=
  ⟨fun instruction member => .other (none instruction member), fun _ => False.elim,
    fun _ => False.elim⟩

theorem pushCode (register : Register) :
    emitter.Uses params tempSlots (fun _ => False) (pushCode register) := by
  refine ⟨fun instruction member => ?_, fun _ => False.elim, fun _ => False.elim⟩
  rcases List.mem_pair.1 member with rfl | rfl
  · exact .push register
  · exact .pushed

theorem append (first : emitter.Uses params tempSlots Slots code)
    (second : emitter.Uses params tempSlots Others more) :
    emitter.Uses params tempSlots (fun slot => Slots slot ∨ Others slot) (code ++ more) := by
  refine ⟨List.forall_mem_append.2 ⟨fun instruction member => ?_, fun instruction member => ?_⟩,
    ?_, ?_⟩
  · exact (first.each instruction member).mono fun _ => .inl
  · exact (second.each instruction member).mono fun _ => .inr
  · rintro slot (here | later)
    · exact (first.all slot here).imp (List.mem_append_left more) (List.mem_append_left more)
    · exact (second.all slot later).imp (List.mem_append_right code) (List.mem_append_right code)
  · rintro slot (here | later)
    · exact first.asserted slot here
    · exact second.asserted slot later

/-- Operands are parked in one slot more than they use themselves. -/
theorem parked {slot : Nat} (left : emitter.Uses params tempSlots Slots code)
    (right : emitter.Uses params tempSlots Others more)
    (asserted : emitter.assertSlot slot tempSlots = .ok ()) :
    emitter.Uses params tempSlots (fun other => other = slot ∨ Slots other ∨ Others other)
      (code ++ .sw .a0 (emitter.slotOffset slot) .fp :: more ++
        [.lw .t1 (emitter.slotOffset slot) .fp]) where
  each := by
    simp only [List.forall_mem_append, List.forall_mem_cons]
    refine ⟨⟨fun instruction member => ?_, .park (.inl rfl), fun instruction member => ?_⟩,
      .unpark (.inl rfl), List.forall_mem_nil _⟩
    · exact (left.each instruction member).mono fun _ inside => .inr (.inl inside)
    · exact (right.each instruction member).mono fun _ inside => .inr (.inr inside)
  all := by
    simp only [List.mem_append, List.mem_cons]
    rintro other (rfl | inside | inside)
    · exact ⟨.inl (.inr (.inl rfl)), .inr (.inl rfl)⟩
    · exact (left.all other inside).imp (fun member => .inl (.inl member)) fun member =>
        .inl (.inl member)
    · exact (right.all other inside).imp (fun member => .inl (.inr (.inr member))) fun member =>
        .inl (.inr (.inr member))
  asserted := by
    rintro other (rfl | inside | inside)
    · exact asserted
    · exact left.asserted other inside
    · exact right.asserted other inside

end Uses

end Emitter

/-! ## Expressions -/

namespace Expr

variable {ε : Type} {emitter : Emitter ε} {table : FrameTable} {scope : Scope} {tempSlots : Nat}

/-- What operands that are parked consist of. -/
theorem parked_eq_ok {depth : Nat} {left : Emit ε (List Instruction)}
    {right : Nat → Emit ε (List Instruction)} {labels rest : LabelSupply} {code : List Instruction}
    (found : emitter.parked tempSlots depth left right labels = .ok (code, rest)) :
    emitter.assertSlot (depth + 1) tempSlots = .ok () ∧
      ∃ first between second, left labels = .ok (first, between) ∧
        right (depth + 1) between = .ok (second, rest) ∧
        code = first ++ .sw .a0 (emitter.slotOffset (depth + 1)) .fp :: second ++
          [.lw .t1 (emitter.slotOffset (depth + 1)) .fp] := by
  cases asserted : emitter.assertSlot (depth + 1) tempSlots with
  | error stop =>
    rw [Emitter.parked, Emit.bind_apply, Emit.lift_apply, asserted] at found
    cases found
  | ok =>
    rw [parked_eq asserted] at found
    obtain ⟨⟨first, between⟩, onLeft, found⟩ := bind_eq_ok_iff.1 found
    obtain ⟨⟨second, last⟩, onRight, found⟩ := bind_eq_ok_iff.1 found
    cases found
    exact ⟨rfl, first, between, second, onLeft, onRight, rfl⟩

mutual

/-- An expression that is emitted uses the slots that it needs, from the first free one on. -/
theorem uses_of_emit : ∀ (e : Expr) {labels rest : LabelSupply} {depth : Nat}
    {code : List Instruction},
    e.emit emitter table scope tempSlots depth labels = .ok (code, rest) →
      emitter.Uses scope.params.length tempSlots
        (fun slot => depth < slot ∧ slot ≤ depth + e.temps) code
  | .number value, labels, rest, depth, code, found => by
    cases found
    refine (Emitter.Uses.of_none ?_).congr fun slot => ?_
    · rintro instruction (_ | _)
      · rfl
      · contradiction
    · simp only [temps, false_iff]
      omega
  | .var name, labels, rest, depth, code, found => by
    obtain ⟨⟨⟨⟩, between⟩, resolved, found⟩ := bind_eq_ok_iff.1 found
    cases found
    obtain ⟨⟨⟩, checked, equal⟩ := bind_eq_ok_iff.1 resolved
    have inside := Scope.idxOf_lt_of_checkVar (emitter.answer_eq_ok_iff.1 checked)
    refine ⟨List.forall_mem_singleton.2 (.param inside), fun slot used => ?_, fun slot used => ?_⟩
    · simp only [temps] at used
      omega
    · simp only [temps] at used
      omega
  | .binary op left right, labels, rest, depth, code, found => by
    obtain ⟨⟨operands, between⟩, parked, found⟩ := bind_eq_ok_iff.1 found
    cases found
    obtain ⟨asserted, first, middle, second, onLeft, onRight, rfl⟩ := parked_eq_ok parked
    have forLeft := uses_of_emit left onLeft
    have forRight := uses_of_emit right onRight
    have operation : ∀ instruction ∈ [op.instruction], instruction.displacement? = none :=
      List.forall_mem_singleton.2 op.displacement?_instruction
    refine ((forLeft.parked forRight asserted).append (.of_none operation)).congr fun slot => ?_
    simp only [temps, or_false]
    omega
  | .conditional left right whenEqual otherwise, labels, rest, depth, code, found => by
    obtain ⟨⟨operands, forOtherwise⟩, parked, found⟩ := bind_eq_ok_iff.1 found
    obtain ⟨⟨unequal, forEqual⟩, onOtherwise, found⟩ := bind_eq_ok_iff.1 found
    obtain ⟨⟨equal, last⟩, onEqual, found⟩ := bind_eq_ok_iff.1 found
    cases found
    obtain ⟨asserted, first, middle, second, onLeft, onRight, rfl⟩ := parked_eq_ok parked
    have operands := (uses_of_emit left onLeft).parked (uses_of_emit right onRight) asserted
    have otherwise := uses_of_emit otherwise onOtherwise
    have whenEqual := uses_of_emit whenEqual onEqual
    have branching : ∀ instruction ∈ [Instruction.beq .a0 .t1 labels.branch.whenEqual],
        instruction.displacement? = none := by simp [Instruction.displacement?]
    have jumping : ∀ instruction ∈
        [Instruction.b labels.branch.done, .label labels.branch.whenEqual],
        instruction.displacement? = none := by simp [Instruction.displacement?]
    have joining : ∀ instruction ∈ [Instruction.label labels.branch.done],
        instruction.displacement? = none := by simp [Instruction.displacement?]
    have uses := ((((operands.append (.of_none branching)).append otherwise).append
      (.of_none jumping)).append whenEqual).append (.of_none joining)
    simp only [List.append_assoc, List.cons_append, List.nil_append] at uses ⊢
    refine uses.congr fun slot => ?_
    simp only [temps, or_false]
    omega
  | .call name args, labels, rest, depth, code, found => by
    unfold emit at found
    obtain ⟨⟨⟨⟩, between⟩, resolved, found⟩ := bind_eq_ok_iff.1 found
    obtain ⟨⟨⟩, checked, equal⟩ := bind_eq_ok_iff.1 resolved
    cases equal
    have callable := emitter.answer_eq_ok_iff.1 checked
    by_cases isPrint : name = printName
    · subst isPrint
      obtain ⟨arg, rfl⟩ := args_of_checkCall_print callable
      obtain ⟨⟨printed, last⟩, onArg, found⟩ := bind_eq_ok_iff.1 found
      cases found
      have printing : ∀ instruction ∈ [Instruction.li .v0 1, .syscall],
          instruction.displacement? = none := by simp [Instruction.displacement?]
      refine ((uses_of_emit arg onArg).append (.of_none printing)).congr fun slot => ?_
      simp only [temps, maxTemps, or_false, Nat.max_zero]
    · dsimp only at found
      rw [if_neg isPrint] at found
      obtain ⟨⟨pushed, last⟩, onArgs, found⟩ := bind_eq_ok_iff.1 found
      cases found
      have jumping : ∀ instruction ∈ [Instruction.jal (entryLabel name)],
          instruction.displacement? = none := by simp [Instruction.displacement?]
      refine (((Emitter.Uses.pushCode .fp).append (uses_of_emitArgs args onArgs)).append
        (.of_none jumping)).congr fun slot => ?_
      simp only [temps, or_false, false_or]

theorem uses_of_emitArgs : ∀ (args : List Expr) {labels rest : LabelSupply} {depth : Nat}
    {code : List Instruction},
    emitArgs emitter table scope tempSlots depth args labels = .ok (code, rest) →
      emitter.Uses scope.params.length tempSlots
        (fun slot => depth < slot ∧ slot ≤ depth + maxTemps args) code
  | [], labels, rest, depth, code, found => by
    cases found
    refine (Emitter.Uses.of_none (List.forall_mem_nil _)).congr fun slot => ?_
    simp only [maxTemps, false_iff]
    omega
  | arg :: args, labels, rest, depth, code, found => by
    obtain ⟨⟨later, between⟩, onArgs, found⟩ := bind_eq_ok_iff.1 found
    obtain ⟨⟨here, last⟩, onArg, found⟩ := bind_eq_ok_iff.1 found
    cases found
    have forArgs := uses_of_emitArgs args onArgs
    have forArg := uses_of_emit arg onArg
    refine ((forArgs.append forArg).append (.pushCode .a0)).congr fun slot => ?_
    simp only [maxTemps, or_false]
    omega

end

/-- Code is emitted for an expression if the assertion holds for the slots that it needs, and only
then. -/
theorem exists_emit_iff {program : Program} {e : Expr} (names : e.Scoped program scope.params)
    (labels : LabelSupply) (depth : Nat) :
    (∃ code rest, e.emit emitter program.frames scope tempSlots depth labels = .ok (code, rest)) ↔
      ∀ slot, depth < slot → slot ≤ depth + e.temps →
        emitter.assertSlot slot tempSlots = .ok () := by
  constructor
  · rintro ⟨code, rest, found⟩ slot above below
    exact (uses_of_emit e found).asserted slot ⟨above, below⟩
  · intro asserted
    exact exists_emit e labels depth ((check_eq_ok_iff e).2 names) asserted

-- One operand waits for the other, so a frame without slots is too small for the sum.
example : (binary .plus (number 1) (number 2)).emit .asserting {} .topLevel 0 0 {} =
    .error (.slotOutside 1 0) := rfl

section Code

variable {program : Program}

/-- The code of an expression uses the slots that the expression needs. -/
theorem uses_code (scope : Scope) (e : Expr) (labels : LabelSupply) (depth : Nat)
    (names : e.Scoped program scope.params) :
    Emitter.plain.Uses scope.params.length 0 (fun slot => depth < slot ∧ slot ≤ depth + e.temps)
      (e.code scope.params labels depth) := by
  have emitted : e.emit .plain program.frames scope 0 depth labels =
      .ok (e.code scope.params labels depth, labels.skip e.conditionals) := by
    rw [emit_eq e labels depth (Emitter.serves_plain _ _ _ _), (check_eq_ok_iff e).2 names]
    rfl
  exact uses_of_emit e emitted

theorem uses_statementsCode (statements : List Expr) (labels : LabelSupply)
    (names : ∀ statement ∈ statements, statement.Scoped program []) :
    Emitter.plain.Uses 0 0 (fun slot => 0 < slot ∧ slot ≤ maxTemps statements)
      (statementsCode labels statements) := by
  induction statements generalizing labels with
  | nil =>
    refine (Emitter.Uses.of_none (List.forall_mem_nil _)).congr fun slot => ?_
    simp only [maxTemps, false_iff]
    omega
  | cons statement statements ih =>
    obtain ⟨here, later⟩ := List.forall_mem_cons.1 names
    have first := uses_code .topLevel statement labels 0 here
    have others := ih (labels.skip statement.conditionals) later
    refine (first.append others).congr fun slot => ?_
    simp only [maxTemps]
    omega

end Code

end Expr

/-! ## Blocks -/

/-- The instruction stores or loads a word next to the frame pointer. -/
def Instruction.usesFrame : Instruction → Bool
  | .sw _ _ base | .lw _ _ base => base = .fp
  | _ => false

/-- How code uses a frame with that many parameters and slots: it stores in every slot, and nowhere
else, and it loads operands from slots and parameters from their places. -/
structure UsesFrame (params slots : Nat) (code : List Instruction) : Prop where
  stores : ∀ n : Int,
    (∃ source, ∃ offset : Int32, .sw source offset .fp ∈ code ∧ offset.toInt = n) ↔
      ∃ slot : Nat, 1 ≤ slot ∧ slot ≤ slots ∧ n = -4 * slot
  operands : ∀ offset : Int32, .lw .t1 offset .fp ∈ code →
    ∃ slot : Nat, 1 ≤ slot ∧ slot ≤ slots ∧ offset.toInt = -4 * slot
  params : ∀ offset : Int32, .lw .a0 offset .fp ∈ code →
    ∃ index : Nat, index < params ∧ offset.toInt = 4 * (index + 1)
  others : ∀ target offset, .lw target offset .fp ∈ code → target = .t1 ∨ target = .a0

namespace UsesFrame

variable {params slots : Nat} {before code after : List Instruction}

/-- Code that uses the slots of a frame, if the frame is not too large. -/
theorem of_uses (uses : Emitter.plain.Uses params 0 (fun slot => 0 < slot ∧ slot ≤ slots) code)
    (small : params + slots ≤ maxFrameWords) : UsesFrame params slots code := by
  have offset_eq {slot : Nat} (inside : slot ≤ slots) :
      (-Emitter.plain.words slot).toInt = -4 * slot := by
    rw [Emitter.plain, toInt_neg_wordBytes (by omega)]
    omega
  refine ⟨fun n => ⟨?_, ?_⟩, fun offset member => ?_, fun offset member => ?_,
    fun target offset member => ?_⟩
  · rintro ⟨source, offset, member, rfl⟩
    obtain ⟨slot, ⟨low, high⟩, rfl⟩ := (uses.each _ member).of_sw
    exact ⟨slot, low, high, offset_eq high⟩
  · rintro ⟨slot, low, high, rfl⟩
    exact ⟨.a0, _, (uses.all slot ⟨low, high⟩).1, offset_eq high⟩
  · obtain ⟨-, slot, ⟨low, high⟩, rfl⟩ | ⟨impossible, -⟩ := (uses.each _ member).of_lw
    · exact ⟨slot, low, high, offset_eq high⟩
    · cases impossible
  · obtain ⟨impossible, -⟩ | ⟨-, index, inside, rfl⟩ := (uses.each _ member).of_lw
    · cases impossible
    · refine ⟨index, inside, ?_⟩
      rw [Emitter.plain, toInt_wordBytes (by omega)]
      rfl
  · exact (uses.each _ member).of_lw.imp And.left And.left

/-- Code around it that does not touch the frame makes no difference. -/
theorem around (uses : UsesFrame params slots code)
    (front : ∀ instruction ∈ before, instruction.usesFrame = false)
    (back : ∀ instruction ∈ after, instruction.usesFrame = false) :
    UsesFrame params slots (before ++ code ++ after) := by
  have same {instruction : Instruction} (touches : instruction.usesFrame) :
      instruction ∈ before ++ code ++ after ↔ instruction ∈ code := by
    have notBefore : instruction ∉ before := fun member => by simp [front _ member] at touches
    have notAfter : instruction ∉ after := fun member => by simp [back _ member] at touches
    simp [notBefore, notAfter]
  refine ⟨fun n => ?_, fun offset member => ?_, fun offset member => ?_,
    fun target offset member => ?_⟩
  · rw [← uses.stores n]
    exact exists₂_congr fun source offset => and_congr_left fun _ => same rfl
  · exact uses.operands offset ((same rfl).1 member)
  · exact uses.params offset ((same rfl).1 member)
  · exact uses.others target offset ((same rfl).1 member)

end UsesFrame

theorem Frame.usesFrame_openCode (frame : Frame) :
    ∀ instruction ∈ frame.openCode, instruction.usesFrame = false := by
  unfold openCode
  split <;> simp [pushCode, Instruction.usesFrame]

/-- The statements use the slots of their frame, which has no parameters. -/
theorem Program.usesFrame_topCode {program : Program} (declarable : program.Declarable)
    (names : program.Scoped) :
    UsesFrame 0 (Expr.maxTemps program.statements) program.topCode := by
  have small : (Frame.ofStatements program.statements).words ≤ maxFrameWords := declarable.main
  simp only [Frame.words, Frame.ofStatements] at small
  have statements := Expr.uses_statementsCode program.statements {} names.statements
  refine UsesFrame.around (.of_uses statements (by omega)) ?_
    (by simp [exitCode, Instruction.usesFrame])
  refine List.forall_mem_append.2 ⟨?_, Frame.usesFrame_openCode _⟩
  simp [preamble, Instruction.usesFrame]

/-- A function uses its frame for its body, and loads the return address from it in the end. -/
theorem Function.IsBlock.exists_usesFrame {program : Program} {function : Function}
    {block : List Instruction} (declarable : function.Declarable)
    (names : function.body.Scoped program function.params) (isBlock : function.IsBlock block) :
    ∃ front size, block = front ++ [.lw .ra 0 .fp, .addiu .sp .sp size, .lw .fp 0 .sp, .jr .ra] ∧
      UsesFrame function.params.length function.body.temps front := by
  obtain ⟨labels, rfl⟩ := isBlock
  have small : (Frame.ofFunction function).words ≤ maxFrameWords := declarable.words
  simp only [Frame.words, Frame.ofFunction] at small
  have body := Expr.uses_code (.body function) function.body labels 0 names
  simp only [Nat.zero_add] at body
  refine ⟨_, _, rfl, ?_⟩
  rw [← List.append_nil (_ ++ _)]
  refine UsesFrame.around (.of_uses body (by omega)) ?_ (List.forall_mem_nil _)
  exact List.forall_mem_cons.2 ⟨rfl, Frame.usesFrame_openCode _⟩

/-! ## Programs -/

/-- In frames that are not too large bytes are counted as usual, and the assertion holds for the
slots that a frame has. -/
structure Emitter.Agrees {ε : Type} (emitter : Emitter ε) : Prop where
  words : ∀ count ≤ maxFrameWords, emitter.words count = wordBytes count
  asserted : ∀ slot tempSlots, slot ≤ tempSlots → emitter.assertSlot slot tempSlots = .ok ()

theorem Emitter.agrees_asserting : asserting.Agrees :=
  ⟨fun _ _ => rfl, fun _ _ inside => if_pos inside⟩

theorem Emitter.Agrees.servesFrame {ε : Type} {emitter : Emitter ε} (agrees : emitter.Agrees)
    {frame : Frame} (small : frame.words ≤ maxFrameWords) :
    emitter.ServesFrame frame frame.params frame.tempSlots := by
  have words : frame.words = frame.params + frame.tempSlots + 2 := rfl
  refine ⟨⟨fun index inside => ?_, fun slot _ inside => ?_, fun slot _ inside => ?_⟩, ?_, ?_⟩
  · exact agrees.words _ (by omega)
  · exact agrees.words _ (by omega)
  · exact agrees.asserted _ _ inside
  · exact agrees.words _ (by omega)
  · exact agrees.words _ small

namespace Program

/-- Every such emitter emits the same code. -/
theorem emit_frames {ε : Type} {emitter : Emitter ε} (agrees : emitter.Agrees) {program : Program}
    (declarable : program.Declarable) (names : program.Scoped) :
    program.emit emitter program.frames = .ok program.assembly := by
  have assembled := (assemble_frames_eq_ok_iff declarable).2 ⟨names, rfl⟩
  rw [assemble_eq] at assembled
  rw [emit_eq, assembled]
  · rfl
  · rintro frame found
    cases found
    exact agrees.servesFrame declarable.main
  · intro function member frame found
    rw [FrameTable.lookup, program.get?_frames, declarable.function?_eq member] at found
    cases found
    exact agrees.servesFrame (declarable.functions function member).words

/-- The slots that the code of a program uses are those that its frames reserve. In every block of
the code the stores next to the frame pointer go to the slots of the block, and to each of them;
operands are loaded from slots and parameters from their places, and besides only a function loads
its return address, in the end. However bytes are counted, the stores of an expression in a frame in
which `depth` slots are in use go to the slots after these, as many as the expression needs; and it
is emitted if and only if what is asserted of a slot holds for these. It holds for all slots of the
program, so an emitter that stops at a slot outside of its frame emits the same code. -/
theorem frame_uses_of_assemble {program : Program} {table : FrameTable} {assembly : Assembly}
    (sized : FrameTable.ofProgram program = .ok table)
    (assembled : program.assemble table = .ok assembly) :
    (∃ top bodies, program.Blocks assembly.instructions top bodies ∧
      UsesFrame 0 (Expr.maxTemps program.statements) top ∧
      List.Forall₂ (fun function body => ∃ front size,
        body = front ++ [.lw .ra 0 .fp, .addiu .sp .sp size, .lw .fp 0 .sp, .jr .ra] ∧
          UsesFrame function.params.length function.body.temps front) program.functions bodies) ∧
    (∀ (ε : Type) (emitter : Emitter ε) (scope : Scope) (e : Expr) (tempSlots depth : Nat)
      (labels : LabelSupply), e.Scoped program scope.params →
      ((∃ code rest, e.emit emitter table scope tempSlots depth labels = .ok (code, rest)) ↔
        ∀ slot, depth < slot → slot ≤ depth + e.temps →
          emitter.assertSlot slot tempSlots = .ok ()) ∧
      ∀ code rest, e.emit emitter table scope tempSlots depth labels = .ok (code, rest) →
        ∀ offset : Int32, (∃ source, .sw source offset .fp ∈ code) ↔
          ∃ slot, (depth < slot ∧ slot ≤ depth + e.temps) ∧ offset = -emitter.words slot) ∧
    program.emit .asserting table = .ok assembly := by
  obtain ⟨declarable, rfl⟩ := FrameTable.ofProgram_eq_ok_iff.1 sized
  obtain ⟨names, rfl⟩ := (assemble_frames_eq_ok_iff declarable).1 assembled
  obtain ⟨bodies, blocks, functions⟩ := exists_function_blocks names
  refine ⟨⟨program.topCode, bodies, blocks, usesFrame_topCode declarable names, ?_⟩, ?_,
    emit_frames Emitter.agrees_asserting declarable names⟩
  · refine functions.imp fun function body here => ?_
    exact here.2.exists_usesFrame (declarable.functions function here.1)
      (names.bodies function here.1)
  · intro ε emitter scope e tempSlots depth labels inScope
    refine ⟨Expr.exists_emit_iff inScope labels depth, fun code rest found offset => ?_⟩
    exact (Expr.uses_of_emit e found).sw_mem_iff

/-- Operands wait for each other in the statement, in the condition and in the arguments. -/
def nestedOperands : Program where
  decls :=
    [.function
      { name := "f"
        params := ["x", "y"]
        body := .conditional (.var "x") (.binary .minus (.number 1) (.var "y"))
          (.binary .plus (.var "y") (.var "x"))
          (.call "f"
            [.binary .minus (.var "x") (.binary .plus (.var "y") (.number 2)), .var "x"]) },
     .statement (.binary .plus (.number 1) (.call "f" [.number 2, .number 3]))]

theorem frame_uses_nestedOperands :
    FrameTable.ofProgram nestedOperands = .ok nestedOperands.frames ∧
      nestedOperands.assemble nestedOperands.frames = .ok nestedOperands.assembly ∧
      (∃ top bodies, nestedOperands.Blocks nestedOperands.assembly.instructions top bodies ∧
        UsesFrame 0 1 top ∧
        List.Forall₂ (fun function body => ∃ front size,
          body = front ++ [.lw .ra 0 .fp, .addiu .sp .sp size, .lw .fp 0 .sp, .jr .ra] ∧
            UsesFrame function.params.length function.body.temps front)
          nestedOperands.functions bodies) ∧
      nestedOperands.functions.map (fun function => function.body.temps) = [2] ∧
      nestedOperands.emit .asserting nestedOperands.frames = .ok nestedOperands.assembly :=
  have sized : FrameTable.ofProgram nestedOperands = .ok nestedOperands.frames := rfl
  have ⟨blocks, _, asserted⟩ := frame_uses_of_assemble sized rfl
  ⟨sized, rfl, blocks, rfl, asserted⟩

end Program

end FunMips
