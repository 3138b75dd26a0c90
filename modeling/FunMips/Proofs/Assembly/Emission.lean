import FunMips.Compiler
import FunMips.Proofs.Except

/-!
# Emitted code in closed form

What is emitted for an expression depends on the expression, the labels that are free and the slots
in use alone (`Expr.code`); the names in it only decide whether there is code at all. This is so for
every emitter that counts bytes as usual, and whose assertion holds, where the expression needs it
(`Emitter.Serves`), so an assertion that holds everywhere changes nothing (`Program.assemble_eq`).
-/

namespace FunMips

open Instruction

/-! ## The closed form -/

/-- Offset of a slot from the frame pointer. -/
def slotOffset (slot : Nat) : Int32 := -wordBytes slot

namespace Frame

/-- Points `$fp` at the frame, saves the return address and makes room for the slots. -/
def openCode (frame : Frame) : List Instruction :=
  move .fp .sp :: pushCode .ra ++
    if 0 < frame.tempSlots then [addiu .sp .sp (-wordBytes frame.tempSlots)] else []

/-- Takes the whole frame off the stack and returns to the caller. -/
def closeCode (frame : Frame) : List Instruction :=
  [lw .ra 0 .fp, addiu .sp .sp (wordBytes frame.words), lw .fp 0 .sp, jr .ra]

end Frame

namespace Expr

mutual

/-- Number of conditionals in an expression, each of which takes a number for its labels. -/
def conditionals : Expr → Nat
  | .number _ | .var _ => 0
  | .binary _ left right => left.conditionals + right.conditionals
  | .conditional left right whenEqual otherwise =>
    1 + left.conditionals + right.conditionals + otherwise.conditionals + whenEqual.conditionals
  | .call _ args => totalConditionals args

/-- Number of conditionals in all the expressions. -/
def totalConditionals : List Expr → Nat
  | [] => 0
  | expr :: exprs => expr.conditionals + totalConditionals exprs

end

mutual

/-- Code of an expression in a function with the given parameters, where the first `depth`
slots of the frame are in use and `labels` holds the free labels. -/
def code (params : List String) (labels : LabelSupply) (depth : Nat) : Expr → List Instruction
  | .number value => [li .a0 value]
  | .var name => [lw .a0 (wordBytes (params.idxOf name + 1)) .fp]
  | .binary op left right =>
    left.code params labels depth ++
      sw .a0 (slotOffset (depth + 1)) .fp ::
      right.code params (labels.skip left.conditionals) (depth + 1) ++
      [lw .t1 (slotOffset (depth + 1)) .fp, op.instruction]
  | .conditional left right whenEqual otherwise =>
    let branch := labels.branch
    let forLeft := labels.skip 1
    let forRight := forLeft.skip left.conditionals
    let forOtherwise := forRight.skip right.conditionals
    let forEqual := forOtherwise.skip otherwise.conditionals
    left.code params forLeft depth ++
      sw .a0 (slotOffset (depth + 1)) .fp ::
      right.code params forRight (depth + 1) ++
      lw .t1 (slotOffset (depth + 1)) .fp ::
      beq .a0 .t1 branch.whenEqual ::
      otherwise.code params forOtherwise depth ++
      b branch.done ::
      label branch.whenEqual ::
      whenEqual.code params forEqual depth ++
      [label branch.done]
  | .call name args =>
    if name = printName then
      match args with
      | [arg] => arg.code params labels depth ++ [li .v0 1, syscall]
      | _ => []
    else pushCode .fp ++ argsCode params labels depth args ++ [jal (entryLabel name)]

/-- Code that pushes the values of arguments, the last one first. -/
def argsCode (params : List String) (labels : LabelSupply) (depth : Nat) :
    List Expr → List Instruction
  | [] => []
  | arg :: args =>
    argsCode params labels depth args ++
      arg.code params (labels.skip (totalConditionals args)) depth ++ pushCode .a0

end

/-- Code of statements, one after the other. -/
def statementsCode (labels : LabelSupply) : List Expr → List Instruction
  | [] => []
  | expr :: exprs =>
    expr.code [] labels 0 ++ statementsCode (labels.skip expr.conditionals) exprs

end Expr

namespace Function

/-- Code of a function with the given frame. -/
def code (labels : LabelSupply) (function : Function) (frame : Frame) : List Instruction :=
  label (entryLabel function.name) :: frame.openCode ++
    function.body.code function.params labels 0 ++ frame.closeCode

/-- Code of functions, one after the other. -/
def allCode (labels : LabelSupply) : List (Function × Frame) → List Instruction
  | [] => []
  | (function, frame) :: functions =>
    function.code labels frame ++ allCode (labels.skip function.body.conditionals) functions

end Function

/-- The recorded frame of a function whose body is in scope. -/
def Function.checkedFrame (table : FrameTable) (function : Function) : Except Diagnostic Frame := do
  let frame ← table.lookup function.name
  function.body.check table (.body function)
  return frame

/-- Code of a program: its statements in their frame, which end the run, then its functions. -/
def Assembly.ofParts (main : Frame) (statements : List Expr)
    (functions : List (Function × Frame)) : Assembly where
  instructions :=
    preamble ++ main.openCode ++ Expr.statementsCode {} statements ++ exitCode ++
      Function.allCode ⟨Expr.totalConditionals statements⟩ functions

/-! ## Steps of the walk -/

namespace Emit

variable {ε α β : Type}

@[simp] theorem bind_apply (first : Emit ε α) (next : α → Emit ε β) (labels : LabelSupply) :
    (first >>= next) labels = first labels >>= fun found => next found.1 found.2 := rfl

@[simp] theorem pure_apply (a : α) (labels : LabelSupply) :
    (pure a : Emit ε α) labels = .ok (a, labels) := rfl

@[simp] theorem lift_apply (found : Except ε α) (labels : LabelSupply) :
    (liftM found : Emit ε α) labels = found >>= fun a => .ok (a, labels) := rfl

end Emit

namespace Emitter

variable {ε α β : Type} (emitter : Emitter ε)

@[simp] theorem answer_ok (a : α) : emitter.answer (.ok a) = .ok a := rfl

theorem answer_bind (first : Except Diagnostic α) (next : α → Except Diagnostic β) :
    emitter.answer (first >>= next) =
      emitter.answer first >>= fun a => emitter.answer (next a) := by
  cases first <;> rfl

theorem answer_plain (found : Except Diagnostic α) : plain.answer found = found := by
  cases found <;> rfl

theorem answer_eq_ok_iff {found : Except Diagnostic α} {a : α} :
    emitter.answer found = .ok a ↔ found = .ok a := by
  cases found with
  | error diagnostic => constructor <;> intro impossible <;> cases impossible
  | ok b => constructor <;> intro equal <;> cases equal <;> rfl

/-- For an expression in a frame with that many parameters and slots, of which it uses those after
`depth` up to `last`, bytes are counted as usual and the assertion holds. -/
structure Serves (params tempSlots depth last : Nat) : Prop where
  params : ∀ index < params, emitter.words (index + 1) = wordBytes (index + 1)
  slots : ∀ slot, depth < slot → slot ≤ last → emitter.words slot = wordBytes slot
  asserted : ∀ slot, depth < slot → slot ≤ last → emitter.assertSlot slot tempSlots = .ok ()

variable {emitter} {params tempSlots depth deeper last fewer : Nat}

theorem Serves.mono (serves : emitter.Serves params tempSlots depth last) (low : depth ≤ deeper)
    (high : fewer ≤ last) : emitter.Serves params tempSlots deeper fewer where
  params := serves.params
  slots slot above below := serves.slots slot (by omega) (by omega)
  asserted slot above below := serves.asserted slot (by omega) (by omega)

/-- The same for code that also opens and closes its frame. -/
structure ServesFrame (emitter : Emitter ε) (frame : Frame) (params last : Nat) : Prop extends
    emitter.Serves params frame.tempSlots 0 last where
  opening : emitter.words frame.tempSlots = wordBytes frame.tempSlots
  closing : emitter.words frame.words = wordBytes frame.words

theorem ServesFrame.openFrame_eq {frame : Frame} (serves : emitter.ServesFrame frame params last) :
    emitter.openFrame frame = frame.openCode := by
  rw [openFrame, Frame.openCode, serves.opening]

theorem ServesFrame.closeFrame_eq {frame : Frame} (serves : emitter.ServesFrame frame params last) :
    emitter.closeFrame frame = frame.closeCode := by
  rw [closeFrame, Frame.closeCode, serves.closing]

theorem serves_plain (params tempSlots depth last : Nat) :
    plain.Serves params tempSlots depth last :=
  ⟨fun _ _ => rfl, fun _ _ _ => rfl, fun _ _ _ => rfl⟩

theorem servesFrame_plain (frame : Frame) (params last : Nat) :
    plain.ServesFrame frame params last :=
  ⟨serves_plain _ _ _ _, rfl, rfl⟩

end Emitter

/-! ## Emission in closed form -/

theorem Scope.idxOf_lt_of_checkVar {scope : Scope} {name : String}
    (found : scope.checkVar name = .ok ()) : scope.params.idxOf name < scope.params.length := by
  cases scope with
  | topLevel => cases found
  | body function =>
    refine List.idxOf_lt_length_iff.2 (Decidable.byContradiction fun absent => ?_)
    have missing : function.paramIndex? name = none := List.idxOf?_eq_none_iff.2 absent
    rw [checkVar, missing] at found
    cases found

namespace Expr

/-- A call of the built-in prints its one argument. -/
theorem code_print (params : List String) (labels : LabelSupply) (depth : Nat) (arg : Expr) :
    (Expr.call printName [arg]).code params labels depth =
      arg.code params labels depth ++ [.li .v0 1, .syscall] := by
  simp [code]

/-- Any other call pushes the frame pointer and the arguments. -/
theorem code_call {name : String} (declared : name ≠ printName) (params : List String)
    (labels : LabelSupply) (depth : Nat) (args : List Expr) :
    (Expr.call name args).code params labels depth =
      pushCode .fp ++ argsCode params labels depth args ++ [.jal (entryLabel name)] := by
  unfold code
  rw [if_neg declared]

variable {ε : Type} {emitter : Emitter ε} {table : FrameTable} {scope : Scope} {tempSlots : Nat}

/-- The built-in takes one argument. -/
theorem args_of_checkCall_print {table : FrameTable} {args : List Expr}
    (callable : table.checkCall printName args.length = .ok ()) : ∃ arg, args = [arg] := by
  rw [FrameTable.checkCall, if_pos rfl, checkArity] at callable
  split at callable
  · next one => exact List.length_eq_one_iff.1 one.symm
  · cases callable

/-- Operands are emitted one after the other, with a store and a load behind them. -/
theorem parked_eq {depth : Nat} {left : Emit ε (List Instruction)}
    {right : Nat → Emit ε (List Instruction)}
    (asserted : emitter.assertSlot (depth + 1) tempSlots = .ok ()) (labels : LabelSupply) :
    emitter.parked tempSlots depth left right labels = left labels >>= fun first =>
      right (depth + 1) first.2 >>= fun second =>
        .ok (first.1 ++ sw .a0 (emitter.slotOffset (depth + 1)) .fp :: second.1 ++
          [lw .t1 (emitter.slotOffset (depth + 1)) .fp], second.2) := by
  simp only [Emitter.parked, Emit.bind_apply, Emit.lift_apply, Emit.pure_apply, asserted, ok_bind]

mutual

/-- If all its names are in scope, an expression is emitted in closed form. -/
theorem emit_eq : ∀ (e : Expr) (labels : LabelSupply) (depth : Nat),
    emitter.Serves scope.params.length tempSlots depth (depth + e.temps) →
      e.emit emitter table scope tempSlots depth labels =
        emitter.answer (e.check table scope) >>= fun _ =>
          .ok (e.code scope.params labels depth, labels.skip e.conditionals)
  | .number _, _, _, _ => rfl
  | .var name, labels, depth, serves => by
    rw [emit, check]
    cases found : scope.checkVar name with
    | error diagnostic => rfl
    | ok =>
      have counted := serves.params _ (Scope.idxOf_lt_of_checkVar found)
      show Except.ok ([lw .a0 (emitter.words (scope.params.idxOf name + 1)) .fp], labels) = _
      rw [counted]
      rfl
  | .binary op left right, labels, depth, serves => by
    rw [temps] at serves
    have forLeft (labels : LabelSupply) :=
      emit_eq left labels depth (serves.mono (by omega) (by omega))
    have forRight (labels : LabelSupply) :=
      emit_eq right labels (depth + 1) (serves.mono (by omega) (by omega))
    have slot : emitter.slotOffset (depth + 1) = slotOffset (depth + 1) :=
      congrArg _ (serves.slots (depth + 1) (by omega) (by omega))
    have asserted := serves.asserted (depth + 1) (by omega) (by omega)
    simp only [emit, check, code, Emit.bind_apply, Emit.pure_apply, parked_eq asserted, forLeft,
      forRight, slot, bind_assoc, ok_bind, Emitter.answer_bind, LabelSupply.skip, conditionals,
      Nat.add_assoc, List.append_assoc, List.cons_append, List.nil_append]
  | .conditional left right whenEqual otherwise, labels, depth, serves => by
    rw [temps] at serves
    have forLeft (labels : LabelSupply) :=
      emit_eq left labels depth (serves.mono (by omega) (by omega))
    have forRight (labels : LabelSupply) :=
      emit_eq right labels (depth + 1) (serves.mono (by omega) (by omega))
    have forEqual (labels : LabelSupply) :=
      emit_eq whenEqual labels depth (serves.mono (by omega) (by omega))
    have forOtherwise (labels : LabelSupply) :=
      emit_eq otherwise labels depth (serves.mono (by omega) (by omega))
    have slot : emitter.slotOffset (depth + 1) = slotOffset (depth + 1) :=
      congrArg _ (serves.slots (depth + 1) (by omega) (by omega))
    have asserted := serves.asserted (depth + 1) (by omega) (by omega)
    have branch : Emit.freshBranch labels = (.ok (labels.branch, labels.skip 1) : Except ε _) := rfl
    simp only [emit, check, code, Emit.bind_apply, Emit.pure_apply, branch, parked_eq asserted,
      forLeft, forRight, forEqual, forOtherwise, slot, bind_assoc, ok_bind, Emitter.answer_bind,
      LabelSupply.skip, conditionals, Nat.add_assoc, List.append_assoc, List.cons_append,
      List.nil_append]
  | .call name args, labels, depth, serves => by
    rw [temps] at serves
    unfold emit check
    cases callable : table.checkCall name args.length with
    | error diagnostic => rfl
    | ok =>
      by_cases isPrint : name = printName
      · subst isPrint
        obtain ⟨arg, rfl⟩ : ∃ arg, args = [arg] := args_of_checkCall_print callable
        have forArg := emit_eq arg labels depth (serves.mono (by omega) (by rw [maxTemps]; omega))
        simp only [Emit.bind_apply, Emit.lift_apply, Emit.pure_apply, Emitter.answer_ok, ok_bind,
          if_pos, forArg, code_print, conditionals, totalConditionals, Nat.add_zero, checkArgs,
          bind_assoc]
      · have forArgs := emitArgs_eq args labels depth serves
        simp only [Emit.bind_apply, Emit.lift_apply, Emit.pure_apply, Emitter.answer_ok, ok_bind,
          if_neg isPrint, forArgs, code_call isPrint, conditionals, bind_assoc]

theorem emitArgs_eq : ∀ (args : List Expr) (labels : LabelSupply) (depth : Nat),
    emitter.Serves scope.params.length tempSlots depth (depth + maxTemps args) →
      emitArgs emitter table scope tempSlots depth args labels =
        emitter.answer (checkArgs table scope args) >>= fun _ =>
          .ok (argsCode scope.params labels depth args, labels.skip (totalConditionals args))
  | [], _, _, _ => rfl
  | arg :: args, labels, depth, serves => by
    rw [maxTemps] at serves
    have forArg (labels : LabelSupply) :=
      emit_eq arg labels depth (serves.mono (by omega) (by omega))
    have forArgs (labels : LabelSupply) :=
      emitArgs_eq args labels depth (serves.mono (by omega) (by omega))
    simp only [emitArgs, checkArgs, argsCode, Emit.bind_apply, Emit.pure_apply, forArg, forArgs,
      bind_assoc, ok_bind, Emitter.answer_bind, LabelSupply.skip, totalConditionals, Nat.add_assoc,
      Nat.add_comm arg.conditionals]

end

mutual

/-- Whether there is code depends on the names and on the assertion alone. -/
theorem exists_emit : ∀ (e : Expr) (labels : LabelSupply) (depth : Nat),
    e.check table scope = .ok () →
      (∀ slot, depth < slot → slot ≤ depth + e.temps → emitter.assertSlot slot tempSlots = .ok ()) →
        ∃ code rest, e.emit emitter table scope tempSlots depth labels = .ok (code, rest)
  | .number _, labels, _, _, _ => ⟨_, labels, rfl⟩
  | .var name, labels, depth, checked, _ => by
    rw [check] at checked
    rw [emit, checked]
    exact ⟨_, labels, rfl⟩
  | .binary op left right, labels, depth, checked, asserted => by
    rw [check, andThen_eq_ok_iff] at checked
    rw [temps] at asserted
    obtain ⟨first, between, onLeft⟩ := exists_emit left labels depth checked.1
      fun slot above below => asserted slot above (by omega)
    obtain ⟨second, rest, onRight⟩ := exists_emit right between (depth + 1) checked.2
      fun slot above below => asserted slot (by omega) (by omega)
    rw [emit, Emit.bind_apply, parked_eq (asserted (depth + 1) (by omega) (by omega)), onLeft,
      ok_bind, onRight]
    exact ⟨_, rest, rfl⟩
  | .conditional left right whenEqual otherwise, labels, depth, checked, asserted => by
    simp only [check, andThen_eq_ok_iff] at checked
    rw [temps] at asserted
    obtain ⟨inLeft, inRight, inOtherwise, inEqual⟩ := checked
    obtain ⟨first, between, onLeft⟩ := exists_emit left (labels.skip 1) depth inLeft
      fun slot above below => asserted slot above (by omega)
    obtain ⟨second, forOtherwise, onRight⟩ := exists_emit right between (depth + 1) inRight
      fun slot above below => asserted slot (by omega) (by omega)
    obtain ⟨unequal, forEqual, onOtherwise⟩ := exists_emit otherwise forOtherwise depth inOtherwise
      fun slot above below => asserted slot above (by omega)
    obtain ⟨equal, rest, onEqual⟩ := exists_emit whenEqual forEqual depth inEqual
      fun slot above below => asserted slot above (by omega)
    have branch : Emit.freshBranch labels = (.ok (labels.branch, labels.skip 1) : Except ε _) := rfl
    simp only [emit, Emit.bind_apply, Emit.pure_apply, branch, ok_bind, onLeft, onRight,
      onOtherwise, onEqual, parked_eq (asserted (depth + 1) (by omega) (by omega))]
    exact ⟨_, rest, rfl⟩
  | .call name args, labels, depth, checked, asserted => by
    rw [check, andThen_eq_ok_iff] at checked
    rw [temps] at asserted
    obtain ⟨callable, inArgs⟩ := checked
    unfold emit
    by_cases isPrint : name = printName
    · subst isPrint
      obtain ⟨arg, rfl⟩ := args_of_checkCall_print callable
      rw [maxTemps] at asserted
      rw [checkArgs, andThen_eq_ok_iff] at inArgs
      obtain ⟨printed, rest, onArg⟩ := exists_emit arg labels depth inArgs.2
        fun slot above below => asserted slot above (by omega)
      simp only [Emit.bind_apply, Emit.lift_apply, Emit.pure_apply, callable, Emitter.answer_ok,
        ok_bind, if_pos, onArg]
      exact ⟨_, rest, rfl⟩
    · obtain ⟨pushed, rest, onArgs⟩ := exists_emitArgs args labels depth inArgs asserted
      simp only [Emit.bind_apply, Emit.lift_apply, Emit.pure_apply, callable, Emitter.answer_ok,
        ok_bind, if_neg isPrint, onArgs]
      exact ⟨_, rest, rfl⟩

theorem exists_emitArgs : ∀ (args : List Expr) (labels : LabelSupply) (depth : Nat),
    checkArgs table scope args = .ok () →
      (∀ slot, depth < slot → slot ≤ depth + maxTemps args →
        emitter.assertSlot slot tempSlots = .ok ()) →
        ∃ code rest, emitArgs emitter table scope tempSlots depth args labels = .ok (code, rest)
  | [], labels, _, _, _ => ⟨_, labels, rfl⟩
  | arg :: args, labels, depth, checked, asserted => by
    rw [checkArgs, andThen_eq_ok_iff] at checked
    rw [maxTemps] at asserted
    obtain ⟨later, between, onArgs⟩ := exists_emitArgs args labels depth checked.1
      fun slot above below => asserted slot above (by omega)
    obtain ⟨here, rest, onArg⟩ := exists_emit arg between depth checked.2
      fun slot above below => asserted slot above (by omega)
    simp only [emitArgs, Emit.bind_apply, Emit.pure_apply, onArgs, ok_bind, onArg]
    exact ⟨_, rest, rfl⟩

end

end Expr

end FunMips
