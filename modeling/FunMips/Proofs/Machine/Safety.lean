import FunMips.Assembly.Label
import FunMips.Machine
import FunMips.Program

/-!
# Safe runs

A moment of a run is a state together with what the run has done before: where the calls that have
not returned go on, and which addresses were stored to. `Safe` says what holds at every moment of
a run that keeps to its code and to its stack: it does not get stuck, it comes to the entry of a
function only by calling it, it returns to where it was called from, it stores at most at the
address it started with, and it loads only what it has stored.
-/

namespace FunMips

namespace Machine

/-- A state of a run, with what the run has done so far. -/
structure Moment where
  state : State
  /-- Where the calls that have not returned go on, the latest one first. -/
  returns : List Nat := []
  /-- The addresses that were stored to, the latest one first. -/
  stores : List Int := []

namespace Moment

/-- The moment after an instruction that leads to the given state. -/
def record (moment : Moment) (next : State) : Instruction → Moment
  | .sw _ offset base =>
    { moment with
      state := next
      stores := (moment.state.registers base + offset.toInt) :: moment.stores }
  | .jal _ => { moment with state := next, returns := (moment.state.pc + 1) :: moment.returns }
  | .jr _ => { moment with state := next, returns := moment.returns.tail }
  | _ => { moment with state := next }

/-- The next moment of a run, if it goes on. -/
def after (code : List Instruction) (moment : Moment) : Option Moment :=
  match code[moment.state.pc]?, step code moment.state with
  | some instruction, .next next => some (moment.record next instruction)
  | _, _ => none

/-- The moment after that many steps, if the run goes on for so long. -/
def run (code : List Instruction) : Nat → Moment → Option Moment
  | 0, moment => some moment
  | count + 1, moment => (moment.after code).bind (run code count)

end Moment

/-- The moments of the run that starts in a state. -/
inductive Occurs (code : List Instruction) (start : State) : Moment → Prop
  | start : Occurs code start { state := start }
  | step {moment next : Moment} (before : Occurs code start moment)
      (now : moment.after code = some next) : Occurs code start next

/-- What an instruction has to find when no address above `top` may be stored to: a load finds
what was stored, and a return goes to where the latest open call goes on. -/
def Permitted (top : Int) (moment : Moment) : Instruction → Prop
  | .sw _ offset base => moment.state.registers base + offset.toInt ≤ top
  | .lw _ offset base => moment.state.registers base + offset.toInt ∈ moment.stores
  | .jr address =>
    ∃ position others, moment.returns = position :: others ∧
      moment.state.registers address = (position : Int)
  | _ => True

/-- The run has ended by the system call for it. -/
def AtExit (code : List Instruction) (state : State) : Prop :=
  code[state.pc]? = some .syscall ∧ step code state = .exit

/-- The run stands at a sum or difference that does not fit in a word. -/
def AtOverflow (code : List Instruction) (state : State) : Prop :=
  (∃ target left right, code[state.pc]? = some (.add target left right) ∨
    code[state.pc]? = some (.sub target left right)) ∧ step code state = .overflow

/-- A moment of a run of a program that keeps to its code and to its stack below `top`. -/
structure Safe (program : Program) (code : List Instruction) (top : Int) (moment : Moment) :
    Prop where
  inside : moment.state.pc < code.length
  notStuck : AtExit code moment.state ∨ AtOverflow code moment.state ∨
    ∃ next, moment.after code = some next
  /-- Only calls come to the entry of a function. -/
  entered : ∀ next, moment.after code = some next → ∀ function ∈ program.functions,
    code[next.state.pc]? = some (.label (entryLabel function.name)) →
      code[moment.state.pc]? = some (.jal (entryLabel function.name))
  permitted : ∀ instruction, code[moment.state.pc]? = some instruction →
    Permitted top moment instruction

/-! ## Runs as counted steps -/

section Run

variable {code : List Instruction}

theorem after_eq_some {moment next : Moment} (now : moment.after code = some next) :
    step code moment.state = .next next.state := by
  unfold Moment.after at now
  split at now
  · next instruction state found stepped =>
    cases now
    rw [stepped]
    cases instruction <;> rfl
  · cases now

theorem exists_after {moment : Moment} {state : State}
    (now : step code moment.state = .next state) :
    ∃ next, moment.after code = some next ∧ next.state = state := by
  unfold Moment.after
  cases found : code[moment.state.pc]? with
  | none =>
    rw [step, found] at now
    cases now
  | some instruction =>
    rw [now]
    refine ⟨_, rfl, ?_⟩
    cases instruction <;> rfl

theorem Moment.run_add (count more : Nat) (moment : Moment) :
    moment.run code (count + more) = (moment.run code count).bind (Moment.run code more) := by
  induction count generalizing moment with
  | zero => simp [run]
  | succ count ih =>
    rw [Nat.succ_add]
    simp only [run]
    cases moment.after code with
    | none => rfl
    | some next => exact ih next

theorem Occurs.exists_run {start : State} {moment : Moment} (occurs : Occurs code start moment) :
    ∃ count, Moment.run code count { state := start } = some moment := by
  induction occurs with
  | start => exact ⟨0, rfl⟩
  | step _ now ih =>
    obtain ⟨count, reached⟩ := ih
    refine ⟨count + 1, ?_⟩
    rw [Moment.run_add, reached]
    simp [Moment.run, now]

theorem Reaches.exists_run {first last : State} (reaches : Reaches code first last)
    (moment : Moment) (here : moment.state = first) :
    ∃ count next, moment.run code count = some next ∧ next.state = last := by
  induction reaches generalizing moment with
  | refl => exact ⟨0, moment, rfl, here⟩
  | step now _ ih =>
    subst here
    obtain ⟨next, after, rfl⟩ := exists_after now
    obtain ⟨count, final, reached, equal⟩ := ih next rfl
    refine ⟨count + 1, final, ?_, equal⟩
    simp [Moment.run, after, reached]

theorem reaches_of_run {count : Nat} {moment next : Moment}
    (reached : moment.run code count = some next) : Reaches code moment.state next.state := by
  induction count generalizing moment with
  | zero =>
    cases reached
    exact .refl _
  | succ count ih =>
    obtain ⟨between, after, reached⟩ := Option.bind_eq_some_iff.1 reached
    exact .step (after_eq_some after) (ih reached)

theorem occurs_of_run {start : State} {count : Nat} {moment next : Moment}
    (before : Occurs code start moment) (reached : moment.run code count = some next) :
    Occurs code start next := by
  induction count generalizing moment with
  | zero =>
    cases reached
    exact before
  | succ count ih =>
    obtain ⟨between, after, reached⟩ := Option.bind_eq_some_iff.1 reached
    exact ih (before.step after) reached

/-- A run that has ended does not go on. -/
theorem run_eq_none {moment last : Moment} {count more : Nat}
    (reached : moment.run code count = some last) (ended : last.after code = none)
    (longer : count < more) : moment.run code more = none := by
  obtain ⟨rest, rfl⟩ : ∃ rest, more = count + (rest + 1) := ⟨more - count - 1, by omega⟩
  rw [Moment.run_add, reached]
  simp [Moment.run, ended]

/-- There is one end to a run. -/
theorem run_end_unique {moment last other : Moment} {count more : Nat}
    (reached : moment.run code count = some last) (ended : last.after code = none)
    (reached' : moment.run code more = some other) (ended' : other.after code = none) :
    last = other := by
  rcases Nat.lt_trichotomy count more with shorter | rfl | longer
  · rw [run_eq_none reached ended shorter] at reached'
    cases reached'
  · rw [reached] at reached'
    exact Option.some.inj reached'
  · rw [run_eq_none reached' ended' longer] at reached
    cases reached

theorem after_eq_none {moment : Moment} (ended : ∀ next, step code moment.state ≠ .next next) :
    moment.after code = none := by
  cases after : moment.after code with
  | none => rfl
  | some next => exact absurd (after_eq_some after) (ended next.state)

end Run

/-! ## Runs through safe moments -/

/-- A run of that many steps, safe at every moment before its last one. -/
structure SafeRun (program : Program) (code : List Instruction) (top : Int) (count : Nat)
    (first last : Moment) : Prop where
  reached : first.run code count = some last
  safe : ∀ earlier, earlier < count → ∀ moment, first.run code earlier = some moment →
    Safe program code top moment

section SafeRun

variable {program : Program} {code : List Instruction} {top : Int}

theorem SafeRun.refl (moment : Moment) : SafeRun program code top 0 moment moment :=
  ⟨rfl, fun _ earlier => absurd earlier (Nat.not_lt_zero _)⟩

theorem SafeRun.trans {first second last : Moment} {count more : Nat}
    (before : SafeRun program code top count first second)
    (later : SafeRun program code top more second last) :
    SafeRun program code top (count + more) first last := by
  constructor
  · rw [Moment.run_add, before.reached]
    exact later.reached
  · intro earlier bound moment reached
    rcases Nat.lt_or_ge earlier count with early | late
    · exact before.safe earlier early moment reached
    · obtain ⟨rest, rfl⟩ := Nat.exists_eq_add_of_le late
      rw [Moment.run_add, before.reached] at reached
      exact later.safe rest (by omega) moment reached

theorem SafeRun.one {moment next : Moment} (safe : Safe program code top moment)
    (now : moment.after code = some next) : SafeRun program code top 1 moment next := by
  constructor
  · simp [Moment.run, now]
  · intro earlier bound other reached
    obtain rfl : earlier = 0 := by omega
    cases reached
    exact safe

end SafeRun

end Machine

end FunMips
