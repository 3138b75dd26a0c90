import FunMips.Frame
import FunMips.Program.Evaluation
import FunMips.Proofs.Program.Hoisting

/-!
# Declarations that frames are recorded for

When all frames of a program are recorded, its functions have names of their own, none of which is
the built-in's, their parameters are distinct, and no frame is too large; the table then holds one
frame for each function, in order, and the one of the statements.
-/

namespace FunMips

theorem firstRepeated?_eq_none_iff {seen names : List String} :
    firstRepeated? seen names = none ↔ names.Nodup ∧ ∀ name ∈ names, name ∉ seen := by
  induction names generalizing seen with
  | nil => simp [firstRepeated?]
  | cons name names ih =>
    simp only [firstRepeated?]
    split
    · next repeated => simp [repeated]
    · next fresh =>
      rw [ih]
      simp only [List.nodup_cons, List.mem_cons, not_or, forall_eq_or_imp]
      constructor
      · rintro ⟨distinct, others⟩
        exact ⟨⟨fun member => (others name member).1 rfl, distinct⟩, fresh,
          fun other member => (others other member).2⟩
      · rintro ⟨⟨absent, distinct⟩, -, others⟩
        exact ⟨distinct, fun other member => ⟨fun equal => absent (equal ▸ member),
          others other member⟩⟩

theorem Expr.maxTemps_le_iff {exprs : List Expr} {count : Nat} :
    maxTemps exprs ≤ count ↔ ∀ e ∈ exprs, e.temps ≤ count := by
  induction exprs with
  | nil => simp [maxTemps]
  | cons e exprs ih => rw [maxTemps, Nat.max_le, ih, List.forall_mem_cons]

namespace Frame

theorem checked_eq_ok_iff {frame checked : Frame} :
    frame.checked = .ok checked ↔ frame.words ≤ maxFrameWords ∧ checked = frame := by
  unfold Frame.checked
  split
  · next small => simp [small, eq_comm]
  · next large => simp [large]

end Frame

/-- What makes it possible to record a function: its name is not the built-in's, its parameters
are distinct, and its frame is not too large. -/
structure Function.Declarable (function : Function) : Prop where
  notPrint : function.name ≠ printName
  params : function.params.Nodup
  words : (Frame.ofFunction function).words ≤ maxFrameWords

/-- The functions of a program can be recorded next to each other, and its statements have a frame
that is not too large. -/
structure Program.Declarable (program : Program) : Prop where
  functions : ∀ function ∈ program.functions, function.Declarable
  distinct : (program.functions.map Function.name).Nodup
  main : (Frame.ofStatements program.statements).words ≤ maxFrameWords

/-- The frames of a program. -/
def Program.frames (program : Program) : FrameTable where
  main? := some (Frame.ofStatements program.statements)
  functions := program.functions.map Frame.ofFunction

namespace FrameTable

theorem declare_eq_ok_iff {table recorded : FrameTable} {function : Function} :
    table.declare function = .ok recorded ↔
      function.Declarable ∧ (∀ frame ∈ table.functions, frame.name ≠ function.name) ∧
        recorded = { table with functions := table.functions ++ [Frame.ofFunction function] } := by
  have free : (table.get? function.name).isSome = false ↔
      ∀ frame ∈ table.functions, frame.name ≠ function.name := by
    simp [get?]
  unfold declare
  split
  · next isPrint =>
    constructor
    · intro h
      cases h
    · rintro ⟨declarable, -⟩
      exact absurd isPrint declarable.notPrint
  · next notPrint =>
    split
    · next taken =>
      rw [← free, taken]
      simp
    · next untaken =>
      have free := free.1 (by simpa using untaken)
      split
      · next repeated =>
        constructor
        · intro h
          cases h
        · rintro ⟨declarable, -⟩
          have none : firstRepeated? [] function.params = none :=
            firstRepeated?_eq_none_iff.2 ⟨declarable.params, by simp⟩
          rw [none] at repeated
          cases repeated
      · next distinct =>
        rw [bind_eq_ok_iff]
        constructor
        · rintro ⟨frame, checked, h⟩
          obtain ⟨small, rfl⟩ := Frame.checked_eq_ok_iff.1 checked
          cases h
          exact ⟨⟨notPrint, (firstRepeated?_eq_none_iff.1 distinct).1, small⟩, free, rfl⟩
        · rintro ⟨declarable, -, rfl⟩
          exact ⟨_, Frame.checked_eq_ok_iff.2 ⟨declarable.words, rfl⟩, rfl⟩

/-- Functions are recorded one after the other exactly when each can be recorded and no name is
taken. -/
theorem foldlM_declare_eq_ok_iff {functions : List Function} {table recorded : FrameTable} :
    functions.foldlM declare table = .ok recorded ↔
      (∀ function ∈ functions, function.Declarable) ∧ (functions.map Function.name).Nodup ∧
        (∀ function ∈ functions, ∀ frame ∈ table.functions, frame.name ≠ function.name) ∧
        recorded = { table with
          functions := table.functions ++ functions.map Frame.ofFunction } := by
  induction functions generalizing table with
  | nil =>
    simp only [List.foldlM_nil, List.map_nil, List.append_nil]
    constructor
    · intro h
      cases h
      simp
    · rintro ⟨-, -, -, rfl⟩
      rfl
  | cons function functions ih =>
    rw [List.foldlM_cons, bind_eq_ok_iff]
    constructor
    · rintro ⟨next, declared, h⟩
      obtain ⟨declarable, free, rfl⟩ := declare_eq_ok_iff.1 declared
      obtain ⟨all, distinct, others, rfl⟩ := ih.1 h
      refine ⟨List.forall_mem_cons.2 ⟨declarable, all⟩, ?_, ?_, by simp⟩
      · rw [List.map_cons, List.nodup_cons]
        refine ⟨fun member => ?_, distinct⟩
        obtain ⟨other, found, equal⟩ := List.mem_map.1 member
        exact others other found (Frame.ofFunction function) (by simp) equal.symm
      · refine List.forall_mem_cons.2 ⟨free, fun other found frame member => ?_⟩
        exact others other found frame (List.mem_append_left _ member)
    · rintro ⟨all, distinct, free, rfl⟩
      obtain ⟨declarable, all⟩ := List.forall_mem_cons.1 all
      obtain ⟨here, free⟩ := List.forall_mem_cons.1 free
      rw [List.map_cons, List.nodup_cons] at distinct
      refine ⟨_, declare_eq_ok_iff.2 ⟨declarable, here, rfl⟩,
        ih.2 ⟨all, distinct.2, fun other found frame member => ?_, by simp⟩⟩
      rcases List.mem_append.1 member with before | last
      · exact free other found frame before
      · rw [List.mem_singleton.1 last]
        exact fun equal => distinct.1 (List.mem_map.2 ⟨other, found, equal.symm⟩)

/-- The frames of a program are recorded exactly when its declarations allow it. -/
theorem ofProgram_eq_ok_iff {program : Program} {table : FrameTable} :
    FrameTable.ofProgram program = .ok table ↔ program.Declarable ∧ table = program.frames := by
  rw [ofProgram_eq, bind_eq_ok_iff]
  constructor
  · rintro ⟨recorded, declared, h⟩
    obtain ⟨main, checked, h⟩ := bind_eq_ok_iff.1 h
    obtain ⟨all, distinct, -, rfl⟩ := foldlM_declare_eq_ok_iff.1 declared
    obtain ⟨small, rfl⟩ := Frame.checked_eq_ok_iff.1 checked
    cases h
    exact ⟨⟨all, distinct, small⟩, by simp [Program.frames]⟩
  · rintro ⟨declarable, rfl⟩
    refine ⟨_, foldlM_declare_eq_ok_iff.2
      ⟨declarable.functions, declarable.distinct, by simp, rfl⟩, bind_eq_ok_iff.2 ⟨_,
        Frame.checked_eq_ok_iff.2 ⟨declarable.main, rfl⟩, ?_⟩⟩
    simp [Program.frames]

end FrameTable

namespace Program

/-- The recorded frame of a name is that of the function of the name. -/
theorem get?_frames (program : Program) (name : String) :
    program.frames.get? name = (program.function? name).map Frame.ofFunction := by
  unfold FrameTable.get? Program.function? Program.frames
  rw [List.find?_map]
  rfl

/-- A function is found by its name, for no other one has it. -/
theorem Declarable.function?_eq {program : Program} (declarable : program.Declarable)
    {function : Function} (member : function ∈ program.functions) :
    program.function? function.name = some function := by
  have distinct := declarable.distinct
  unfold Program.function?
  revert member distinct
  induction program.functions with
  | nil => simp
  | cons first others ih =>
    intro member distinct
    rw [List.map_cons, List.nodup_cons] at distinct
    rcases List.mem_cons.1 member with rfl | later
    · simp
    · have differ : first.name ≠ function.name := fun equal =>
        distinct.1 (List.mem_map.2 ⟨function, later, equal.symm⟩)
      rw [List.find?_cons_of_neg (by simpa using differ)]
      exact ih later distinct.2

theorem mem_of_function? {program : Program} {name : String} {function : Function}
    (found : program.function? name = some function) :
    function ∈ program.functions ∧ function.name = name := by
  refine ⟨List.mem_of_find?_eq_some found, ?_⟩
  have := List.find?_some found
  simpa using this

end Program

end FunMips
