/-! When a computation that may fail succeeds. -/

namespace PageScript

variable {ε ε' α β : Type}
variable {result : Except ε α} {next : α → Except ε β}

theorem bind_eq_ok {value : β} :
    (result >>= next) = .ok value ↔ ∃ first, result = .ok first ∧ next first = .ok value := by
  cases result with
  | error fault => simp [bind, Except.bind]
  | ok first => simp [bind, Except.bind]

theorem mapError_eq_ok {change : ε → ε'} {value : α} :
    result.mapError change = .ok value ↔ result = .ok value := by
  cases result with
  | error fault => exact ⟨fun failed => (nomatch failed), fun failed => (nomatch failed)⟩
  | ok first =>
    constructor
    · intro done
      cases done
      rfl
    · intro done
      cases done
      rfl

theorem bind_eq_error {fault : ε} :
    (result >>= next) = .error fault ↔
      result = .error fault ∨ ∃ first, result = .ok first ∧ next first = .error fault := by
  cases result with
  | error other => simp [bind, Except.bind]
  | ok first => simp [bind, Except.bind]

theorem mapError_eq_error {change : ε → ε'} {fault : ε'} :
    result.mapError change = .error fault ↔ ∃ cause, result = .error cause ∧ change cause = fault := by
  cases result with
  | error cause =>
    constructor
    · intro failed
      cases failed
      exact ⟨cause, rfl, rfl⟩
    · rintro ⟨_, same, rfl⟩
      cases same
      rfl
  | ok first =>
    constructor
    · intro failed
      cases failed
    · rintro ⟨_, same, _⟩
      cases same

theorem foldlM_eq_error {step : β → α → Except ε β} {items : List α} {start : β} {fault : ε}
    (failed : items.foldlM step start = .error fault) :
    ∃ earlier item later state, items = earlier ++ item :: later ∧
      earlier.foldlM step start = .ok state ∧ step state item = .error fault := by
  induction items generalizing start with
  | nil => cases failed
  | cons item rest ih =>
    rw [List.foldlM_cons] at failed
    rcases bind_eq_error.mp failed with here | ⟨next, stepped, later⟩
    · exact ⟨[], item, rest, start, rfl, rfl, here⟩
    · obtain ⟨earlier, other, after, state, rfl, before, last⟩ := ih later
      refine ⟨item :: earlier, other, after, state, rfl, ?_, last⟩
      rw [List.foldlM_cons, stepped]
      exact before

theorem map_eq_ok {change : α → β} {value : β} :
    result.map change = .ok value ↔ ∃ first, result = .ok first ∧ change first = value := by
  cases result with
  | error fault => simp [Except.map]
  | ok first => simp [Except.map]

theorem toOption_eq_some {value : α} : result.toOption = some value ↔ result = .ok value := by
  cases result with
  | error fault => simp [Except.toOption]
  | ok first => simp [Except.toOption]

theorem toOption_map_eq_some {change : α → β} {value : β} :
    result.toOption.map change = some value ↔ ∃ first, result = .ok first ∧ change first = value := by
  rw [Option.map_eq_some_iff]
  simp only [toOption_eq_some]

theorem exists_ok_bind {first second : Prop} (succeeds : (∃ value, result = .ok value) ↔ first)
    (continues : ∀ value, result = .ok value → ((∃ answer, next value = .ok answer) ↔ second)) :
    (∃ answer, (result >>= next) = .ok answer) ↔ first ∧ second := by
  rw [← succeeds]
  constructor
  · rintro ⟨answer, done⟩
    obtain ⟨value, begun, ended⟩ := bind_eq_ok.mp done
    exact ⟨⟨value, begun⟩, (continues value begun).mp ⟨answer, ended⟩⟩
  · rintro ⟨⟨value, begun⟩, rest⟩
    obtain ⟨answer, ended⟩ := (continues value begun).mpr rest
    exact ⟨answer, bind_eq_ok.mpr ⟨value, begun, ended⟩⟩

theorem exists_ok_pure (value : α) :
    (∃ answer, (pure value : Except ε α) = .ok answer) ↔ True :=
  ⟨fun _ => trivial, fun _ => ⟨value, rfl⟩⟩

theorem exists_ok_bind_pure (change : α → β) :
    (∃ answer, (result >>= fun value => pure (change value)) = .ok answer) ↔
      ∃ value, result = .ok value := by
  cases result with
  | error fault => simp [bind, Except.bind]
  | ok value => simp [bind, Except.bind, pure, Except.pure]

end PageScript
