import FunMips.Diagnostic

/-!
# Steps that can fail

When a sequence of steps gives an answer: every step of it does. When it gives none: the first step
that gives none decides why.
-/

namespace FunMips

variable {ε α β : Type}

theorem bind_eq_ok_iff {first : Except ε α} {next : α → Except ε β} {b : β} :
    first >>= next = .ok b ↔ ∃ a, first = .ok a ∧ next a = .ok b := by
  cases first with
  | ok a =>
    constructor
    · intro h
      exact ⟨a, rfl, h⟩
    · rintro ⟨a', equal, h⟩
      cases equal
      exact h
  | error e =>
    constructor
    · intro h
      cases h
    · rintro ⟨a, equal, _⟩
      cases equal

theorem bind_eq_error_iff {first : Except ε α} {next : α → Except ε β} {e : ε} :
    first >>= next = .error e ↔ first = .error e ∨ ∃ a, first = .ok a ∧ next a = .error e := by
  cases first with
  | ok a =>
    constructor
    · intro h
      exact .inr ⟨a, rfl, h⟩
    · rintro (equal | ⟨a', equal, h⟩)
      · cases equal
      · cases equal
        exact h
  | error found =>
    constructor
    · intro h
      cases h
      exact .inl rfl
    · rintro (equal | ⟨a, equal, -⟩)
      · cases equal
        rfl
      · cases equal

/-- A step that has no answer of its own to hand on. -/
theorem andThen_eq_ok_iff {first : Except ε Unit} {next : Except ε β} {b : β} :
    (first >>= fun _ => next) = .ok b ↔ first = .ok () ∧ next = .ok b := by
  rw [bind_eq_ok_iff]
  constructor
  · rintro ⟨⟨⟩, here, later⟩
    exact ⟨here, later⟩
  · rintro ⟨here, later⟩
    exact ⟨(), here, later⟩

@[simp] theorem ok_bind (a : α) (next : α → Except ε β) : Except.ok a >>= next = next a := rfl

theorem Stop.ofDiagnostic_eq_ok_iff {answer : Except Diagnostic α} {a : α} :
    Stop.ofDiagnostic answer = .ok a ↔ answer = .ok a := by
  cases answer <;> simp [Stop.ofDiagnostic]

theorem forM_eq_ok_iff {check : α → Except ε Unit} {items : List α} :
    items.forM check = .ok () ↔ ∀ item ∈ items, check item = .ok () := by
  induction items with
  | nil =>
    simp only [List.not_mem_nil, false_implies, implies_true, iff_true]
    rfl
  | cons item items ih =>
    change check item >>= (fun _ => items.forM check) = .ok () ↔ _
    rw [andThen_eq_ok_iff, ih, List.forall_mem_cons]

/-- Checks stop at the first item that is refused. -/
theorem forM_eq_error_iff {check : α → Except ε Unit} {items : List α} {e : ε} :
    items.forM check = .error e ↔ ∃ before item after, items = before ++ item :: after ∧
      (∀ earlier ∈ before, check earlier = .ok ()) ∧ check item = .error e := by
  induction items with
  | nil =>
    constructor
    · intro h
      cases h
    · rintro ⟨before, item, after, equal, -⟩
      simp at equal
  | cons first items ih =>
    change check first >>= (fun _ => items.forM check) = .error e ↔ _
    cases checked : check first with
    | error found =>
      constructor
      · intro h
        cases h
        exact ⟨[], first, items, rfl, by simp, checked⟩
      · rintro ⟨before, item, after, equal, earlier, refused⟩
        cases before with
        | nil =>
          cases equal
          exact checked.symm.trans refused
        | cons other before =>
          cases equal
          cases checked.symm.trans (earlier first List.mem_cons_self)
    | ok =>
      change items.forM check = .error e ↔ _
      rw [ih]
      constructor
      · rintro ⟨before, item, after, rfl, earlier, refused⟩
        exact ⟨first :: before, item, after, rfl, List.forall_mem_cons.2 ⟨checked, earlier⟩,
          refused⟩
      · rintro ⟨before, item, after, equal, earlier, refused⟩
        cases before with
        | nil =>
          cases equal
          cases checked.symm.trans refused
        | cons other before =>
          cases equal
          exact ⟨before, item, after, rfl, (List.forall_mem_cons.1 earlier).2, refused⟩

/-- Steps that hand on what they have found stop at the first item that is refused. -/
theorem foldlM_eq_error_iff {step : β → α → Except ε β} {items : List α} {start : β} {e : ε} :
    items.foldlM step start = .error e ↔ ∃ before item after between,
      items = before ++ item :: after ∧ before.foldlM step start = .ok between ∧
        step between item = .error e := by
  induction items generalizing start with
  | nil =>
    constructor
    · intro h
      cases h
    · rintro ⟨before, item, after, between, equal, -⟩
      simp at equal
  | cons first items ih =>
    rw [List.foldlM_cons, bind_eq_error_iff]
    constructor
    · rintro (here | ⟨next, stepped, later⟩)
      · exact ⟨[], first, items, start, rfl, rfl, here⟩
      · obtain ⟨before, item, after, between, rfl, reached, refused⟩ := ih.1 later
        refine ⟨first :: before, item, after, between, rfl, ?_, refused⟩
        rw [List.foldlM_cons, stepped]
        exact reached
    · rintro ⟨before, item, after, between, equal, reached, refused⟩
      cases before with
      | nil =>
        cases equal
        cases reached
        exact .inl refused
      | cons other before =>
        cases equal
        rw [List.foldlM_cons] at reached
        obtain ⟨next, stepped, reached⟩ := bind_eq_ok_iff.1 reached
        exact .inr ⟨next, stepped, ih.2 ⟨before, item, after, between, rfl, reached, refused⟩⟩

theorem forM_flatMap (check : β → Except ε Unit) (parts : α → List β) (items : List α) :
    (items.flatMap parts).forM check = items.forM fun item => (parts item).forM check := by
  induction items with
  | nil => rfl
  | cons item items ih =>
    simp only [List.forM_eq_forM] at ih
    simp only [List.flatMap_cons, List.forM_eq_forM, List.forM_append, List.forM_cons, ih]

/-- Steps that check and then give a known answer. -/
theorem mapM_eq_forM {step : α → Except ε β} {check : α → Except ε Unit} {answer : α → β}
    {items : List α}
    (known : ∀ item ∈ items, step item = check item >>= fun _ => .ok (answer item)) :
    items.mapM step = items.forM check >>= fun _ => .ok (items.map answer) := by
  induction items with
  | nil => rfl
  | cons item items ih =>
    obtain ⟨here, later⟩ := List.forall_mem_cons.1 known
    rw [List.mapM_cons, here, ih later]
    change _ = (check item >>= fun _ => items.forM check) >>= _
    cases check item with
    | error => rfl
    | ok => cases items.forM check <;> rfl

/-- Where every step gives a known answer if it gives one, so does the whole list. -/
theorem mapM_eq_ok_iff {step : α → Except ε β} {answer : α → β} {holds : α → Prop} {items : List α}
    (known : ∀ item ∈ items, ∀ b, step item = .ok b ↔ holds item ∧ b = answer item)
    {b : List β} :
    items.mapM step = .ok b ↔ (∀ item ∈ items, holds item) ∧ b = items.map answer := by
  induction items generalizing b with
  | nil =>
    constructor
    · intro h
      cases h
      simp
    · rintro ⟨-, rfl⟩
      rfl
  | cons item items ih =>
    have others (answers : List β) : items.mapM step = .ok answers ↔
        (∀ item ∈ items, holds item) ∧ answers = items.map answer :=
      ih fun i member => known i (List.mem_cons_of_mem _ member)
    rw [List.mapM_cons, bind_eq_ok_iff]
    constructor
    · rintro ⟨first, found, h⟩
      obtain ⟨rest, remaining, h⟩ := bind_eq_ok_iff.1 h
      obtain ⟨here, rfl⟩ := (known item List.mem_cons_self first).1 found
      obtain ⟨later, rfl⟩ := (others rest).1 remaining
      cases h
      exact ⟨List.forall_mem_cons.2 ⟨here, later⟩, rfl⟩
    · rintro ⟨all, rfl⟩
      obtain ⟨here, later⟩ := List.forall_mem_cons.1 all
      refine ⟨answer item, (known item List.mem_cons_self _).2 ⟨here, rfl⟩, ?_⟩
      rw [bind_eq_ok_iff]
      exact ⟨_, (others _).2 ⟨later, rfl⟩, rfl⟩

end FunMips
