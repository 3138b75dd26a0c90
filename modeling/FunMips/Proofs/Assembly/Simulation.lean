import FunMips.Proofs.Assembly.Execution
import FunMips.Proofs.Assembly.Labels

/-!
# Code does what the interpreter does

The code of an expression, run in a frame of the body it stands in, follows the interpreter: it
comes to its end with the value in `$a0`, it stops at a sum that does not fit, or it runs for at
least as many steps as there was fuel (`Follows`). All the way it is safe. What it leaves alone is
the frame pointer, the calls that are open, and the memory above the stack pointer but for the
slots it uses itself (`Keeps`).

The proof is by induction on the fuel, which bounds the calls that are open at once, and for each
fuel by recursion on the expression.
-/

namespace FunMips

open Machine

section Follows

variable {α β : Type} {program : Program} {code : List Instruction} {top : Int} {fuel : Nat}

/-- The run from a moment follows the interpreter. A value is reached at a moment of which `post`
holds; a run that the interpreter gives up takes at least as many steps as there was fuel. -/
def Follows (program : Program) (code : List Instruction) (top : Int) (fuel : Nat)
    (result : Evaluation α) (first : Moment) (post : α → List Int32 → Moment → Prop) : Prop :=
  match result with
  | .value a printed => ∃ count last, SafeRun program code top count first last ∧
      post a printed last
  | .overflow _ => ∃ count last, SafeRun program code top count first last ∧
      AtOverflow code last.state ∧ Safe program code top last
  | .unfinished => ∃ count last, SafeRun program code top count first last ∧ fuel ≤ count
  | .stuck => False

theorem Follows.after {result : Evaluation α} {first second : Moment} {count : Nat}
    {post : α → List Int32 → Moment → Prop} (before : SafeRun program code top count first second)
    (later : Follows program code top fuel result second post) :
    Follows program code top fuel result first post := by
  cases result with
  | value a printed =>
    obtain ⟨more, last, run, holds⟩ := later
    exact ⟨count + more, last, before.trans run, holds⟩
  | overflow printed =>
    obtain ⟨more, last, run, ends⟩ := later
    exact ⟨count + more, last, before.trans run, ends⟩
  | unfinished =>
    obtain ⟨more, last, run, enough⟩ := later
    exact ⟨count + more, last, before.trans run, by omega⟩
  | stuck => exact later

theorem Follows.andThen {result : Evaluation α} {next : α → List Int32 → Evaluation β}
    {first : Moment} {post : α → List Int32 → Moment → Prop}
    {final : β → List Int32 → Moment → Prop}
    (before : Follows program code top fuel result first post)
    (later : ∀ a printed second, post a printed second →
      Follows program code top fuel (next a printed) second final) :
    Follows program code top fuel (result.andThen next) first final := by
  cases result with
  | value a printed =>
    obtain ⟨count, second, run, holds⟩ := before
    exact Follows.after run (later a printed second holds)
  | overflow printed => exact before
  | unfinished => exact before
  | stuck => exact before.elim

/-- A run to a value may go on after it. -/
theorem Follows.extend {result : Evaluation α} {first : Moment}
    {post final : α → List Int32 → Moment → Prop}
    (before : Follows program code top fuel result first post)
    (later : ∀ a printed second, post a printed second →
      Follows program code top fuel (.value a printed) second final) :
    Follows program code top fuel result first final := by
  cases result with
  | value a printed =>
    obtain ⟨count, second, run, holds⟩ := before
    exact Follows.after run (later a printed second holds)
  | overflow printed => exact before
  | unfinished => exact before
  | stuck => exact before

/-- The run ends here with the value. -/
theorem Follows.value {a : α} {printed : List Int32} {moment : Moment}
    {post : α → List Int32 → Moment → Prop} (holds : post a printed moment) :
    Follows program code top fuel (.value a printed) moment post :=
  ⟨0, moment, .refl moment, holds⟩

end Follows

/-! ## What code leaves alone -/

/-- The values lie above an address, the first one next to it, and were stored there. -/
def Held (values : List Int32) (base : Int) (moment : Moment) : Prop :=
  ∀ (index : Nat) value, values[index]? = some value →
    moment.mem (base + 4 * (index + 1)) = value.toInt ∧ base + 4 * (index + 1) ∈ moment.stores

theorem Held.cons {value : Int32} {values : List Int32} {base : Int} {moment : Moment}
    (first : moment.mem (base + 4) = value.toInt) (stored : base + 4 ∈ moment.stores)
    (others : Held values (base + 4) moment) : Held (value :: values) base moment := by
  intro index found here
  cases index with
  | zero =>
    cases here
    exact ⟨first, stored⟩
  | succ index =>
    obtain ⟨held, kept⟩ := others index found here
    have equal : base + 4 * ((index + 1 : Nat) + 1) = base + 4 + 4 * (index + 1) := by omega
    rw [equal]
    exact ⟨held, kept⟩

theorem Held.of_memory {values : List Int32} {base : Int} {first last : Moment}
    (held : Held values base first)
    (memory : ∀ address, base < address → address ≤ base + 4 * values.length →
      last.mem address = first.mem address) (stores : first.stores ⊆ last.stores) :
    Held values base last := by
  intro index value found
  obtain ⟨inside, -⟩ := List.getElem?_eq_some_iff.1 found
  obtain ⟨here, stored⟩ := held index value found
  rw [memory _ (by omega) (by omega)]
  exact ⟨here, stores stored⟩

/-- A frame with that many slots and the given arguments around the frame pointer. -/
structure InFrame (top : Int) (slots : Nat) (values : List Int32) (moment : Moment) : Prop where
  room : moment.reg .sp + 4 * slots + 4 ≤ moment.reg .fp
  bounded : moment.reg .fp ≤ top
  arguments : Held values (moment.reg .fp) moment

/-- What code that uses the slots after `depth`, `count` of them, leaves as it was. -/
structure Keeps (depth count : Nat) (first last : Moment) : Prop where
  fp : last.reg .fp = first.reg .fp
  memory : ∀ address, first.reg .sp < address →
    (∀ slot : Nat, depth < slot → slot ≤ depth + count → address ≠ first.reg .fp - 4 * slot) →
      last.mem address = first.mem address
  stores : first.stores ⊆ last.stores
  returns : last.returns = first.returns

namespace Keeps

variable {depth count : Nat} {first second last : Moment}

theorem refl (moment : Moment) : Keeps depth count moment moment :=
  ⟨rfl, fun _ _ _ => rfl, fun _ member => member, rfl⟩

theorem trans (before : Keeps depth count first second) (lower : second.reg .sp ≤ first.reg .sp)
    (later : Keeps depth count second last) : Keeps depth count first last := by
  refine ⟨later.fp.trans before.fp, ?_, fun _ member => later.stores (before.stores member),
    later.returns.trans before.returns⟩
  intro address above free
  rw [later.memory address (by omega), before.memory address above free]
  rw [before.fp]
  exact free

theorem mono {depth' count' : Nat} (keeps : Keeps depth' count' first last) (start : depth ≤ depth')
    (stop : depth' + count' ≤ depth + count) : Keeps depth count first last := by
  refine ⟨keeps.fp, fun address above free => ?_, keeps.stores, keeps.returns⟩
  exact keeps.memory address above fun slot low high => free slot (by omega) (by omega)

end Keeps

theorem InFrame.keeps {top : Int} {slots depth count : Nat} {values : List Int32}
    {first last : Moment} (frame : InFrame top slots values first)
    (keeps : Keeps depth count first last) (lower : last.reg .sp ≤ first.reg .sp) :
    InFrame top slots values last := by
  obtain ⟨room, bounded, arguments⟩ := frame
  refine ⟨by rw [keeps.fp]; omega, by rw [keeps.fp]; exact bounded, ?_⟩
  rw [keeps.fp]
  refine arguments.of_memory (fun address above _ => ?_) keeps.stores
  exact keeps.memory address (by omega) fun slot _ _ => by omega

/-- The code of an expression has run to its end. -/
structure Evaluated (depth count length : Nat) (first : Moment) (value : Int32)
    (printed : List Int32) (last : Moment) : Prop extends Keeps depth count first last where
  pc : last.pc = first.pc + length
  a0 : last.reg .a0 = value.toInt
  sp : last.reg .sp = first.reg .sp
  output : last.output = printed.map Int32.toInt

/-- What ran before the code of an expression is counted with it. -/
theorem Evaluated.after {depth count fewer length more : Nat} {first second last : Moment}
    {value : Int32} {printed : List Int32}
    (evaluated : Evaluated depth fewer length second value printed last)
    (keeps : Keeps depth count first second) (sp : second.reg .sp = first.reg .sp)
    (few : fewer ≤ count) (pc : last.pc = first.pc + more) :
    Evaluated depth count more first value printed last where
  toKeeps := keeps.trans (Int.le_of_eq sp) (evaluated.toKeeps.mono (Nat.le_refl _) (by omega))
  pc := pc
  a0 := evaluated.a0
  sp := evaluated.sp.trans sp
  output := evaluated.output

theorem Evaluated.goto {depth count length : Nat} {first last : Moment} {value : Int32}
    {printed : List Int32} (evaluated : Evaluated depth count length first value printed last)
    (further : Nat) :
    Evaluated depth count further first value printed (last.goto (first.pc + further)) :=
  ⟨⟨evaluated.fp, evaluated.memory, evaluated.stores, evaluated.returns⟩, rfl, evaluated.a0,
    evaluated.sp, evaluated.output⟩

/-- The code that pushes arguments has run to its end. -/
structure Pushed (depth count length : Nat) (args : List Expr) (first : Moment)
    (values printed : List Int32) (last : Moment) : Prop extends Keeps depth count first last where
  pc : last.pc = first.pc + length
  arity : values.length = args.length
  sp : last.reg .sp = first.reg .sp - 4 * values.length
  arguments : Held values (last.reg .sp) last
  output : last.output = printed.map Int32.toInt

/-- A function has been called, from a place where the frame pointer was `frame`. -/
structure Entered (top : Int) (values : List Int32) (back : Nat) (others : List Nat) (frame : Int)
    (moment : Moment) : Prop where
  bounded : moment.reg .sp + 4 * (values.length + 1) ≤ top
  arguments : Held values (moment.reg .sp) moment
  saved : moment.mem (moment.reg .sp + 4 * (values.length + 1)) = frame
  savedStored : moment.reg .sp + 4 * (values.length + 1) ∈ moment.stores
  ra : moment.reg .ra = (back : Int)
  returns : moment.returns = back :: others

/-- The function has returned. -/
structure Returned (count back : Nat) (others : List Nat) (frame : Int) (first : Moment)
    (value : Int32) (printed : List Int32) (last : Moment) : Prop where
  pc : last.pc = back
  a0 : last.reg .a0 = value.toInt
  sp : last.reg .sp = first.reg .sp + 4 * (count + 1)
  fp : last.reg .fp = frame
  memory : ∀ address, first.reg .sp < address →
    last.mem address = first.mem address
  stores : first.stores ⊆ last.stores
  returns : last.returns = others
  output : last.output = printed.map Int32.toInt

/-- Calls of functions follow the interpreter, from the entry of the function to the place it
returns to. -/
def CallsFollow (program : Program) (code : List Instruction) (top : Int) (fuel : Nat) : Prop :=
  ∀ function ∈ program.functions, ∀ (values printed : List Int32) (moment : Moment) (back : Nat)
    (others : List Nat) (frame : Int), function.params.length = values.length →
    code.idxOf? (.label (entryLabel function.name)) = some moment.pc →
    Interior program code back → Entered top values back others frame moment →
    moment.output = printed.map Int32.toInt →
    Follows program code top fuel (program.calls fuel function values printed) moment
      (Returned values.length back others frame moment)

/-- What the code of an expression stands in: code with distinct labels, in which every function
has its entry and calls follow the interpreter, and a frame that is not too large. -/
structure Setting (program : Program) (code : List Instruction) (top : Int) (fuel : Nat)
    (params : List String) (values : List Int32) (slots : Nat) : Prop where
  distinct : (labelsOf code).Nodup
  entries : ∀ function ∈ program.functions, Instruction.label (entryLabel function.name) ∈ code
  calls : CallsFollow program code top fuel
  arity : params.length = values.length
  small : params.length + slots + 2 ≤ maxFrameWords

/-- The code of the expression follows the interpreter, wherever it stands in a body and however
many slots are in use. -/
def Expr.Simulated (program : Program) (code : List Instruction) (top : Int) (fuel : Nat)
    (params : List String) (values : List Int32) (slots : Nat) (e : Expr) : Prop :=
  ∀ (labels : LabelSupply) (depth : Nat) (printed : List Int32) (moment : Moment),
    Placed program code moment.pc (e.code params labels depth) →
    depth + e.temps ≤ slots → InFrame top slots values moment →
    moment.output = printed.map Int32.toInt →
    Follows program code top fuel
      (e.evalWith program (program.calls fuel) (params.zip values) printed) moment
      (Evaluated depth e.temps (e.code params labels depth).length moment)

/-- The code that pushes arguments follows the interpreter in the same way. -/
def Expr.ArgsSimulated (program : Program) (code : List Instruction) (top : Int) (fuel : Nat)
    (params : List String) (values : List Int32) (slots : Nat) (args : List Expr) : Prop :=
  ∀ (labels : LabelSupply) (depth : Nat) (printed : List Int32) (moment : Moment),
    Placed program code moment.pc (argsCode params labels depth args) →
    depth + maxTemps args ≤ slots → InFrame top slots values moment →
    moment.output = printed.map Int32.toInt →
    Follows program code top fuel
      (evalArgsWith program (program.calls fuel) (params.zip values) args printed) moment
      (Pushed depth (maxTemps args) (argsCode params labels depth args).length args moment)

section Expression

variable {program : Program} {code : List Instruction} {top : Int} {fuel : Nat}
variable {params : List String} {values : List Int32} {slots : Nat}

namespace Keeps

variable {depth count : Nat} {first last : Moment}

theorem store_slot {slot : Nat} (keeps : Keeps depth count first last) (low : depth < slot)
    (high : slot ≤ depth + count) (value : Int) :
    Keeps depth count first (last.store (last.reg .fp - 4 * slot) value) := by
  refine ⟨keeps.fp, fun address above free => ?_,
    fun _ member => List.mem_cons_of_mem _ (keeps.stores member), keeps.returns⟩
  rw [Moment.store_mem, if_neg, keeps.memory address above free]
  rw [keeps.fp]
  exact free slot low high

/-- A push does not touch what lies above the stack pointer. -/
theorem push (keeps : Keeps depth count first last) (lower : last.reg .sp ≤ first.reg .sp)
    (value : Int) : Keeps depth count first (last.push value) := by
  refine ⟨keeps.fp, fun address above free => ?_,
    fun _ member => List.mem_cons_of_mem _ (keeps.stores member), keeps.returns⟩
  rw [Moment.push_mem, if_neg (by omega), keeps.memory address above free]

theorem assign {register : Register} (keeps : Keeps depth count first last)
    (differ : Register.fp ≠ register) (value : Int) :
    Keeps depth count first (last.assign register value) := by
  refine ⟨?_, keeps.memory, keeps.stores, keeps.returns⟩
  rw [Moment.assign_reg, if_neg differ]
  exact keeps.fp

theorem goto (keeps : Keeps depth count first last) (position : Nat) :
    Keeps depth count first (last.goto position) :=
  ⟨keeps.fp, keeps.memory, keeps.stores, keeps.returns⟩

end Keeps

/-- The left operand has been evaluated and lies in the first free slot. -/
structure Stored (depth count length : Nat) (first : Moment) (left : Int32) (printed : List Int32)
    (last : Moment) : Prop extends Keeps depth count first last where
  pc : last.pc = first.pc + length + 1
  sp : last.reg .sp = first.reg .sp
  held : last.mem (last.reg .fp - 4 * (depth + 1 : Nat)) = left.toInt
  stored : last.reg .fp - 4 * (depth + 1 : Nat) ∈ last.stores
  output : last.output = printed.map Int32.toInt

theorem Evaluated.store {depth count fewer length : Nat} {first last : Moment} {left : Int32}
    {printed : List Int32} (evaluated : Evaluated depth fewer length first left printed last)
    (few : fewer ≤ count) (some : 0 < count) :
    Stored depth count length first left printed
      (last.store (last.reg .fp - 4 * (depth + 1 : Nat)) (last.reg .a0)) := by
  have keeps : Keeps depth count first last := evaluated.toKeeps.mono (Nat.le_refl _) (by omega)
  refine ⟨keeps.store_slot (by omega) (by omega) _, ?_, evaluated.sp, ?_, List.mem_cons_self,
    evaluated.output⟩
  · rw [Moment.store_pc, evaluated.pc]
  · rw [Moment.store_reg, Moment.store_mem, if_pos rfl, evaluated.a0]

/-- Two operands are there: the left one in `$t1`, the right one in `$a0`. -/
structure Parked (depth count length : Nat) (first : Moment) (left right : Int32)
    (printed : List Int32) (last : Moment) : Prop extends Keeps depth count first last where
  pc : last.pc = first.pc + length
  t1 : last.reg .t1 = left.toInt
  a0 : last.reg .a0 = right.toInt
  sp : last.reg .sp = first.reg .sp
  output : last.output = printed.map Int32.toInt

/-- A left operand is kept in a slot while the right one is evaluated. -/
theorem Expr.Simulated.parked {α : Type} {left right : Expr}
    (setting : Setting program code top fuel params values slots)
    (onLeft : left.Simulated program code top fuel params values slots)
    (onRight : right.Simulated program code top fuel params values slots)
    {forLeft forRight : LabelSupply} {depth : Nat} {printed : List Int32} {moment : Moment}
    {rest : List Instruction} {next : Int32 → Int32 → List Int32 → Evaluation α}
    {post : α → List Int32 → Moment → Prop}
    (placed : Placed program code moment.pc (left.code params forLeft depth ++
      .sw .a0 (slotOffset (depth + 1)) .fp :: right.code params forRight (depth + 1) ++
      .lw .t1 (slotOffset (depth + 1)) .fp :: rest))
    (room : depth + max left.temps (right.temps + 1) ≤ slots)
    (frame : InFrame top slots values moment)
    (output : moment.output = printed.map Int32.toInt)
    (later : ∀ a b printed last, Parked depth (max left.temps (right.temps + 1))
      ((left.code params forLeft depth).length + 1 +
        (right.code params forRight (depth + 1)).length + 1) moment a b printed last →
      Placed program code last.pc rest →
      Follows program code top fuel (next a b printed) last post) :
    Follows program code top fuel
      ((left.evalWith program (program.calls fuel) (params.zip values) printed).andThen
        fun a printed =>
          (right.evalWith program (program.calls fuel) (params.zip values) printed).andThen
            fun b printed => next a b printed) moment post := by
  have small := setting.small
  have slotSize : (slotOffset (depth + 1)).toInt = -(4 * (depth + 1 : Nat)) :=
    toInt_slotOffset (by omega)
  apply (onLeft forLeft depth printed moment placed.left.left (by omega) frame output).andThen
  intro a printed first evaluated
  have few : left.temps ≤ max left.temps (right.temps + 1) := by omega
  have firstSp := evaluated.sp
  obtain ⟨firstRoom, bounded, -⟩ := frame.keeps evaluated.toKeeps (by omega)
  have atStore := placed.left.next evaluated.pc
  have store : SafeRun program code top 1 first
      (first.store (first.reg .fp - 4 * (depth + 1 : Nat)) (first.reg .a0)) :=
    safeRun_sw atStore (by omega) (by omega)
  have stored := evaluated.store few (by omega)
  apply Follows.after store
  have atRight := atStore.tail
  rw [← Moment.store_pc] at atRight
  generalize first.store (first.reg .fp - 4 * (depth + 1 : Nat)) (first.reg .a0) = second
    at stored atRight
  have secondSp := stored.sp
  have frameSecond := frame.keeps stored.toKeeps (by omega)
  have secondRoom := frameSecond.room
  apply (onRight forRight (depth + 1) printed second atRight (by omega) frameSecond
    stored.output).andThen
  intro b printed third evaluatedRight
  have thirdPc : third.pc = moment.pc + (left.code params forLeft depth ++
      .sw .a0 (slotOffset (depth + 1)) .fp :: right.code params forRight (depth + 1)).length := by
    rw [evaluatedRight.pc, stored.pc, List.length_append, List.length_cons]
    omega
  have keepsThird := stored.toKeeps.trans (by omega)
    (evaluatedRight.toKeeps.mono (by omega) (by omega))
  have atLoad := placed.next thirdPc
  -- the right operand uses later slots only, so the left one is still there
  have still := evaluatedRight.memory (second.reg .fp - 4 * (depth + 1 : Nat)) (by omega)
    fun slot low _ => by omega
  have load : SafeRun program code top 1 third (third.assign .t1 a.toInt) :=
    safeRun_lw atLoad (by rw [evaluatedRight.fp]; omega) (still.trans stored.held)
      (evaluatedRight.stores stored.stored)
  refine Follows.after load (later a b printed _ ⟨keepsThird.assign (by decide) _, ?_, ?_, ?_, ?_,
    evaluatedRight.output⟩ atLoad.tail)
  · rw [Moment.assign_pc, thirdPc, List.length_append, List.length_cons]
    omega
  · simp
  · simpa using evaluatedRight.a0
  · rw [← secondSp, ← evaluatedRight.sp]
    simp

/-- The label after the code of an expression belongs to it. -/
theorem Evaluated.passLabel {depth count length : Nat} {first last : Moment} {value : Int32}
    {printed : List Int32} {name : String}
    (evaluated : Evaluated depth count length first value printed last)
    (placed : Placed program code (first.pc + length) [.label name]) :
    Follows program code top fuel (.value value printed) last
      (Evaluated depth count (length + 1) first) := by
  rw [← evaluated.pc] at placed
  refine Follows.after (safeRun_label placed.head placed.tail.start) (Follows.value ?_)
  refine ⟨evaluated.toKeeps.goto _, ?_, evaluated.a0, evaluated.sp, evaluated.output⟩
  rw [Moment.goto_pc, evaluated.pc, Nat.add_assoc]

/-- A call finds the arguments above the stack pointer, and the frame pointer above them. -/
theorem Pushed.entered {args : List Expr} {given printed : List Int32} {depth length entry : Nat}
    {moment second : Moment} (frame : InFrame top slots values moment)
    (room : depth + Expr.maxTemps args ≤ slots)
    (pushed : Pushed depth (Expr.maxTemps args) length args (moment.push (moment.reg .fp)) given
      printed second) :
    Entered top given (second.pc + 1) second.returns (moment.reg .fp) (second.call entry) := by
  have frameRoom := frame.room
  have bounded := frame.bounded
  have sp := pushed.sp
  rw [Moment.push_sp] at sp
  have savedAt : second.reg .sp + 4 * (given.length + 1) = moment.reg .sp := by omega
  refine ⟨?_, pushed.arguments, ?_, ?_, rfl, rfl⟩
  · rw [Moment.call_sp]
    omega
  · rw [Moment.call_sp, Moment.call_mem, savedAt]
    -- the arguments were pushed below the frame pointer, and no slot lies that low
    rw [pushed.memory _ (by rw [Moment.push_sp]; omega) ?_, Moment.push_mem, if_pos rfl]
    intro slot _ high
    rw [Moment.push_reg, if_neg (by decide)]
    omega
  · rw [Moment.call_sp, Moment.call_stores, savedAt]
    exact pushed.stores List.mem_cons_self

namespace Expr

theorem simulated_number (value : Int32) :
    (Expr.number value).Simulated program code top fuel params values slots := by
  intro labels depth printed moment placed _ _ output
  refine Follows.after (safeRun_li placed) (Follows.value ?_)
  exact ⟨(Keeps.refl moment).assign (by decide) _, rfl, rfl, rfl, output⟩

/-- A parameter has the value of the argument at its place. -/
theorem exists_lookup_zip {name : String} (present : name ∈ params)
    (arity : params.length = values.length) :
    ∃ value, (params.zip values).lookup name = some value ∧
      values[params.idxOf name]? = some value := by
  induction params generalizing values with
  | nil => simp at present
  | cons param params ih =>
    cases values with
    | nil => simp at arity
    | cons value values =>
      by_cases same : name = param
      · subst same
        exact ⟨value, by simp, by simp⟩
      · obtain ⟨found, looked, placed⟩ := ih (List.mem_of_ne_of_mem same present)
          (Nat.succ.inj arity)
        refine ⟨found, ?_, ?_⟩
        · rw [List.zip_cons_cons, List.lookup_cons, beq_false_of_ne same]
          exact looked
        · rw [List.idxOf_cons_ne _ (Ne.symm same), List.getElem?_cons_succ]
          exact placed

theorem simulated_var {name : String}
    (setting : Setting program code top fuel params values slots) (present : name ∈ params) :
    (Expr.var name).Simulated program code top fuel params values slots := by
  intro labels depth printed moment placed _ frame output
  obtain ⟨value, looked, found⟩ := exists_lookup_zip present setting.arity
  obtain ⟨held, stored⟩ := frame.arguments _ value found
  have inside := List.idxOf_lt_length_of_mem present
  have small := setting.small
  have offset : (wordBytes (params.idxOf name + 1)).toInt = 4 * (params.idxOf name + 1 : Nat) :=
    toInt_wordBytes (by omega)
  have load : SafeRun program code top 1 moment (moment.assign .a0 value.toInt) :=
    safeRun_lw placed (by rw [offset]; rfl) held stored
  simp only [evalWith, looked]
  refine Follows.after load (Follows.value ?_)
  exact ⟨(Keeps.refl moment).assign (by decide) _, rfl, rfl, rfl, output⟩

theorem Simulated.binary {op : BinOp} {left right : Expr}
    (onLeft : left.Simulated program code top fuel params values slots)
    (setting : Setting program code top fuel params values slots)
    (onRight : right.Simulated program code top fuel params values slots) :
    (Expr.binary op left right).Simulated program code top fuel params values slots := by
  intro labels depth printed moment placed room frame output
  apply onLeft.parked setting onRight placed room frame output
  intro a b printed last parked placed
  cases result : op.result? a b with
  | none =>
    obtain ⟨overflow, safe⟩ := safe_operation placed.head parked.t1 parked.a0 result
    exact ⟨0, last, .refl last, overflow, safe⟩
  | some value =>
    refine Follows.after (safeRun_operation placed parked.t1 parked.a0 result) (Follows.value ?_)
    refine ⟨parked.toKeeps.assign (by decide) _, ?_, rfl, parked.sp, parked.output⟩
    rw [Moment.assign_pc, parked.pc]
    simp only [Expr.code, List.length_append, List.length_cons, List.length_nil]
    omega

/-- The part of a conditional that chooses between the code of its branches. -/
def branchCode (names : BranchLabels) (whenEqual otherwise : List Instruction) :
    List Instruction :=
  .beq .a0 .t1 names.whenEqual :: otherwise ++ .b names.done :: .label names.whenEqual ::
    whenEqual ++ [.label names.done]

/-- The branches, from where both operands are there. -/
theorem Simulated.branch {whenEqual otherwise : Expr}
    (setting : Setting program code top fuel params values slots)
    (onEqual : whenEqual.Simulated program code top fuel params values slots)
    (onOther : otherwise.Simulated program code top fuel params values slots)
    {names : BranchLabels} {forEqual forOther : LabelSupply} {depth : Nat} {a b : Int32}
    {printed : List Int32} {moment : Moment}
    (placed : Placed program code moment.pc (branchCode names
      (whenEqual.code params forEqual depth) (otherwise.code params forOther depth)))
    (t1 : moment.reg .t1 = a.toInt) (a0 : moment.reg .a0 = b.toInt)
    (room : depth + max whenEqual.temps otherwise.temps ≤ slots)
    (frame : InFrame top slots values moment)
    (output : moment.output = printed.map Int32.toInt) :
    Follows program code top fuel
      (if a = b then whenEqual.evalWith program (program.calls fuel) (params.zip values) printed
        else otherwise.evalWith program (program.calls fuel) (params.zip values) printed) moment
      (Evaluated depth (max whenEqual.temps otherwise.temps) (branchCode names
        (whenEqual.code params forEqual depth) (otherwise.code params forOther depth)).length
        moment) := by
  have atSkip := placed.left.right
  have atEqual := atSkip.tail
  have atDone := placed.right
  have keeps (position : Nat) : Keeps depth (max whenEqual.temps otherwise.temps) moment
      (moment.goto position) := (Keeps.refl moment).goto position
  rw [branchCode, List.length_append, List.length_singleton]
  by_cases equal : a = b
  · rw [if_pos equal]
    refine Follows.after (safeRun_beq_equal placed.head (by rw [a0, t1, equal])
      (idxOf?_label setting.distinct atEqual.head) atEqual.start) ?_
    apply Follows.after (safeRun_label atEqual.head atEqual.tail.start)
    apply Follows.extend (onEqual forEqual depth printed ((moment.goto _).goto _) atEqual.tail
      (by omega) (frame.keeps ((keeps _).goto _) (Int.le_refl _)) output)
    intro value printed last evaluated
    refine (evaluated.after ((keeps _).goto _) rfl (by omega) ?_).passLabel atDone
    rw [evaluated.pc, Moment.goto_pc]
    simp only [List.length_append, List.length_cons]
    omega
  · rw [if_neg equal]
    have differ : moment.reg .a0 ≠ moment.reg .t1 := by
      rw [a0, t1, ne_eq, Int32.toInt_inj, eq_comm]
      exact equal
    apply Follows.after (safeRun_beq_unequal placed.left.left differ)
    apply Follows.extend (onOther forOther depth printed (moment.goto _) placed.left.left.tail
      (by omega) (frame.keeps (keeps _) (Int.le_refl _)) output)
    intro value printed second evaluated
    have secondPc : second.pc = moment.pc +
        (.beq .a0 .t1 names.whenEqual :: otherwise.code params forOther depth).length := by
      rw [evaluated.pc, Moment.goto_pc, List.length_cons]
      omega
    refine Follows.after (safeRun_b (by rw [secondPc]; exact atSkip.head)
      (idxOf?_label setting.distinct atDone.head) atDone.start) ?_
    exact ((evaluated.after (keeps _) rfl (by omega) secondPc).goto _).passLabel atDone

/-- The code of a conditional evaluates its operands and then chooses between the branches. -/
theorem code_conditional (left right whenEqual otherwise : Expr) (params : List String)
    (labels : LabelSupply) (depth : Nat) :
    ∃ forLeft forRight forEqual forOther,
      (Expr.conditional left right whenEqual otherwise).code params labels depth =
        left.code params forLeft depth ++
          .sw .a0 (slotOffset (depth + 1)) .fp :: right.code params forRight (depth + 1) ++
          .lw .t1 (slotOffset (depth + 1)) .fp :: branchCode labels.branch
            (whenEqual.code params forEqual depth) (otherwise.code params forOther depth) :=
  ⟨_, _, _, _, by simp [Expr.code, branchCode]; rfl⟩

theorem Simulated.conditional {left right whenEqual otherwise : Expr}
    (onLeft : left.Simulated program code top fuel params values slots)
    (setting : Setting program code top fuel params values slots)
    (onRight : right.Simulated program code top fuel params values slots)
    (onEqual : whenEqual.Simulated program code top fuel params values slots)
    (onOther : otherwise.Simulated program code top fuel params values slots) :
    (Expr.conditional left right whenEqual otherwise).Simulated program code top fuel params values
      slots := by
  intro labels depth printed moment placed room frame output
  have most : (Expr.conditional left right whenEqual otherwise).temps =
      max (max (max left.temps (right.temps + 1)) whenEqual.temps) otherwise.temps := rfl
  obtain ⟨forLeft, forRight, forEqual, forOther, parts⟩ :=
    code_conditional left right whenEqual otherwise params labels depth
  rw [parts] at placed ⊢
  apply onLeft.parked setting onRight placed (by omega) frame output
  intro a b printed second parked atBranch
  have keeps : Keeps depth (Expr.conditional left right whenEqual otherwise).temps moment second :=
    parked.toKeeps.mono (Nat.le_refl _) (by omega)
  apply Follows.extend (Simulated.branch setting onEqual onOther atBranch parked.t1 parked.a0
    (by omega) (frame.keeps keeps (Int.le_of_eq parked.sp)) parked.output)
  intro value printed last evaluated
  refine Follows.value (evaluated.after keeps parked.sp (by omega) ?_)
  rw [evaluated.pc, parked.pc]
  simp only [List.length_append, List.length_cons]
  omega

theorem Simulated.print {arg : Expr}
    (onArg : arg.Simulated program code top fuel params values slots) :
    (Expr.call printName [arg]).Simulated program code top fuel params values slots := by
  intro labels depth printed moment placed room frame output
  have most : (Expr.call printName [arg]).temps = arg.temps := Nat.max_zero _
  rw [code_print] at placed ⊢
  rw [evalWith_print, most]
  rw [most] at room
  apply (onArg labels depth printed moment placed.left room frame output).andThen
  intro value printed second evaluated
  have atSelect := placed.next evaluated.pc
  apply Follows.after (safeRun_li atSelect)
  refine Follows.after (safeRun_print atSelect.tail rfl) (Follows.value ?_)
  have keeps : Keeps depth arg.temps moment (second.assign .v0 1) :=
    evaluated.toKeeps.assign (by decide) _
  refine ⟨⟨keeps.fp, keeps.memory, keeps.stores, keeps.returns⟩, ?_, evaluated.a0, evaluated.sp, ?_⟩
  · rw [Moment.print_pc, Moment.assign_pc, evaluated.pc, List.length_append]
    rfl
  · rw [Moment.print_output, Moment.assign_output, evaluated.output, List.map_append]
    congr 1
    exact congrArg (fun word => [word]) evaluated.a0

theorem argsSimulated_nil : ArgsSimulated program code top fuel params values slots [] := by
  intro labels depth printed moment placed _ _ output
  refine Follows.value ⟨Keeps.refl moment, rfl, rfl, (Int.sub_zero _).symm, ?_, output⟩
  intro index value found
  cases found

theorem Simulated.argsCons {arg : Expr} {args : List Expr}
    (onArg : arg.Simulated program code top fuel params values slots)
    (onArgs : ArgsSimulated program code top fuel params values slots args) :
    ArgsSimulated program code top fuel params values slots (arg :: args) := by
  intro labels depth printed moment placed room frame output
  have most : maxTemps (arg :: args) = max arg.temps (maxTemps args) := rfl
  have frameRoom := frame.room
  have bounded := frame.bounded
  apply (onArgs labels depth printed moment placed.left.left (by omega) frame output).andThen
  intro others printed first pushed
  have firstSp := pushed.sp
  have keeps : Keeps depth (maxTemps (arg :: args)) moment first :=
    pushed.toKeeps.mono (Nat.le_refl _) (by omega)
  have atArg := placed.left.next pushed.pc
  apply (onArg _ depth printed first atArg (by omega) (frame.keeps keeps (by omega))
    pushed.output).andThen
  intro value printed second evaluated
  have secondSp := evaluated.sp
  have keepsSecond : Keeps depth (maxTemps (arg :: args)) moment second :=
    keeps.trans (by omega) (evaluated.toKeeps.mono (Nat.le_refl _) (by omega))
  have secondPc : second.pc = moment.pc + (argsCode params labels depth args ++
      arg.code params (labels.skip (totalConditionals args)) depth).length := by
    rw [evaluated.pc, pushed.pc, List.length_append, Nat.add_assoc]
  have atPush := placed.next secondPc
  refine Follows.after (safeRun_push atPush (by omega)) (Follows.value ?_)
  refine ⟨keepsSecond.push (by omega) _, ?_, by rw [List.length_cons, pushed.arity]; rfl, ?_, ?_,
    evaluated.output⟩
  · rw [Moment.push_pc, secondPc]
    simp only [argsCode, List.length_append]
    rfl
  · rw [Moment.push_sp, List.length_cons]
    omega
  · -- the value is where the stack pointer was, and the others are where they were
    rw [Moment.push_sp]
    apply Held.cons
    · rw [Moment.push_mem, if_pos (by omega), evaluated.a0]
    · rw [Moment.push_stores, Int.sub_add_cancel]
      exact List.mem_cons_self
    · rw [Int.sub_add_cancel, secondSp]
      refine pushed.arguments.of_memory (fun address above high => ?_)
        fun _ member => List.mem_cons_of_mem _ (evaluated.stores member)
      rw [Moment.push_mem, if_neg (by omega)]
      exact evaluated.memory address above fun slot _ _ => by
        have := pushed.fp
        omega

theorem ArgsSimulated.call {name : String} {args : List Expr}
    (onArgs : ArgsSimulated program code top fuel params values slots args)
    (setting : Setting program code top fuel params values slots)
    (declared : name ≠ printName) (callable : program.Callable name args.length) :
    (Expr.call name args).Simulated program code top fuel params values slots := by
  intro labels depth printed moment placed room frame output
  rw [Program.Callable, if_neg declared] at callable
  obtain ⟨function, found, arity⟩ := callable
  obtain ⟨member, rfl⟩ := Program.mem_of_function? found
  obtain ⟨entry, isEntry⟩ := List.mem_iff_getElem?.1 (setting.entries function member)
  have there := idxOf?_label setting.distinct isEntry
  have frameRoom := frame.room
  have bounded := frame.bounded
  rw [code_call declared] at placed ⊢
  rw [evalWith_call args printed declared found]
  apply Follows.after (safeRun_push placed.left.left (by omega))
  have keeps : Keeps depth (Expr.call function.name args).temps moment
      (moment.push (moment.reg .fp)) := (Keeps.refl moment).push (Int.le_refl _) _
  have frameSecond := frame.keeps keeps (by rw [Moment.push_sp]; omega)
  apply (onArgs labels depth printed (moment.push _) placed.left.right room frameSecond
    output).andThen
  intro given printed second pushed
  have arity : function.params.length = given.length := arity.trans pushed.arity.symm
  have secondSp : second.reg .sp = moment.reg .sp - 4 - 4 * given.length := pushed.sp
  have secondPc : second.pc =
      moment.pc + (pushCode .fp ++ argsCode params labels depth args).length := by
    rw [pushed.pc, Moment.push_pc, List.length_append, Nat.add_assoc]
    rfl
  have atCall := placed.next secondPc
  rw [if_pos arity]
  apply Follows.after (safeRun_jal atCall.head there)
  apply Follows.extend (setting.calls function member given printed (second.call entry)
    (second.pc + 1) second.returns (moment.reg .fp) arity there atCall.tail.start
    (pushed.entered frame room) pushed.output)
  intro value printed last returned
  have throughArgs := keeps.trans (by rw [Moment.push_sp]; omega) pushed.toKeeps
  refine Follows.value ⟨⟨returned.fp, fun address above free => ?_, ?_, ?_⟩, ?_, returned.a0, ?_,
    returned.output⟩
  · rw [returned.memory address, Moment.call_mem]
    · exact throughArgs.memory address above free
    · rw [Moment.call_sp]
      omega
  · exact fun _ member => returned.stores (throughArgs.stores member)
  · exact returned.returns.trans throughArgs.returns
  · rw [returned.pc, secondPc]
    simp only [List.length_append, List.length_singleton]
    omega
  · rw [returned.sp, Moment.call_sp]
    omega

mutual

/-- The code of every expression follows the interpreter. -/
theorem simulated (setting : Setting program code top fuel params values slots) :
    ∀ e : Expr, e.Scoped program params →
      e.Simulated program code top fuel params values slots
  | .number value, _ => simulated_number value
  | .var _, present => simulated_var setting present
  | .binary _ left right, names =>
    (simulated setting left names.1).binary setting (simulated setting right names.2)
  | .conditional left right whenEqual otherwise, names =>
    (simulated setting left names.1).conditional setting (simulated setting right names.2.1)
      (simulated setting whenEqual names.2.2.1) (simulated setting otherwise names.2.2.2)
  | .call name args, names => by
    by_cases isPrint : name = printName
    · subst isPrint
      obtain ⟨arg, rfl⟩ : ∃ arg, args = [arg] := List.length_eq_one_iff.1 names.1
      exact (simulated setting arg names.2.1).print
    · exact (argsSimulated setting args names.2).call setting isPrint names.1

theorem argsSimulated (setting : Setting program code top fuel params values slots) :
    ∀ args : List Expr, ArgsScoped program params args →
      ArgsSimulated program code top fuel params values slots args
  | [], _ => argsSimulated_nil
  | arg :: args, names =>
    (simulated setting arg names.1).argsCons (argsSimulated setting args names.2)

end

end Expr

end Expression

end FunMips
