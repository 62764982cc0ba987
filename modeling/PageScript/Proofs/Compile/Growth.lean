import PageScript.Proofs.Compile.Steps

/-! A relation that each change to a job keeps is kept by an expansion (`expand_related`). -/

namespace PageScript

open Option

variable {progress after : Progress} {base : Path} {text : Text} {name : String}
  {building : List String}

/-- A relation between states that every single change of a state keeps. Ignored modules are never
noted. -/
structure Progress.Stepwise (ignored : List String) (related : Progress → Progress → Prop) : Prop
    extends Progress.IgnoresNotes related where
  markFile : ∀ (progress : Progress) (file : Path), related progress (progress.markFile file)
  markModule : ∀ (progress : Progress) (name : String), name ∉ ignored →
    related progress (progress.markModule name)
  deferModule : ∀ (progress : Progress) (name : String), name ∉ ignored →
    related progress (progress.deferModule name)
  setTexts : ∀ (progress : Progress) (table : LocaleTable),
    related progress { progress with moduleTable := table }

namespace Context

/-- A relation between states that is kept where files are marked and where files are gathered. -/
structure Gathers (context : Context) (related : Progress → Progress → Prop) : Prop where
  refl : ∀ progress, related progress progress
  trans : ∀ {first second third}, related first second → related second third → related first third
  markFile : ∀ (progress : Progress) (file : Path), related progress (progress.markFile file)
  gather : ∀ progress pending, related progress (context.gather progress pending).2

variable {context : Context} {related : Progress → Progress → Prop}

section

variable (gathers : context.Gathers related)

include gathers

theorem expandAll_related {expand : Expander}
    (each : ∀ {base progress code text after}, expand base progress code = some (text, after) →
      related progress after) {inclusions : List Inclusion} {parts : List Text}
    (done : expandAll expand progress inclusions = some (parts, after)) : related progress after := by
  induction inclusions generalizing progress parts with
  | nil =>
    cases done
    exact gathers.refl _
  | cons inclusion rest ih =>
    simp only [expandAll, bind_eq_bind, bind_eq_some_iff] at done
    obtain ⟨⟨code, next⟩, expanded, ⟨others, last⟩, remaining, same⟩ := done
    cases same
    exact gathers.trans (each expanded) (ih remaining)

theorem require_related {expand : Expander}
    (each : ∀ {base progress code text after}, expand base progress code = some (text, after) →
      related progress after) {flags : InclusionFlags} {target : Text} {written : Option Text}
    (done : context.require expand flags base progress target = some (written, after)) :
    related progress after := by
  unfold require at done
  split at done
  · cases done
    exact gathers.refl _
  · dsimp only at done
    split at done
    · cases done
      exact Progress.foldl_related gathers.refl gathers.trans (fun progress file _ => gathers.markFile progress file) _
    · simp only [bind_eq_bind, bind_eq_some_iff] at done
      obtain ⟨⟨parts, last⟩, expanded, same⟩ := done
      cases same
      exact gathers.trans (gathers.gather progress _) (expandAll_related gathers each expanded)

theorem expandRequires_related {fuel : Nat} {code : Text}
    (done : context.expandRequires fuel base progress code = some (text, after)) :
    related progress after := by
  induction fuel generalizing base progress after code text with
  | zero => cases done
  | succ fuel ih =>
    refine Text.weave?_related _ gathers.refl gathers.trans ?_ done
    intro progress lexeme directive written next stepped
    simp only [bind_eq_bind, bind_eq_some_iff] at stepped
    obtain ⟨⟨own, last⟩, required, same⟩ := stepped
    cases same
    exact require_related gathers ih required

end

variable (stepwise : Progress.Stepwise context.settings.ignored related)

include stepwise

theorem gathers_of_stepwise : context.Gathers related where
  refl := stepwise.refl
  trans := stepwise.trans
  markFile := stepwise.markFile
  gather progress pending := by
    refine stepwise.trans ?_ (context.gather_related stepwise.toIgnoresNotes progress pending)
    exact Progress.foldl_related stepwise.refl stepwise.trans (fun progress file _ => stepwise.markFile progress file) _

private theorem addLocales_related (name : String) (folder : Path) (file : Option String)
    (progress : Progress) (code : Text) :
    related progress (context.addLocales name folder file progress code).2 := by
  unfold addLocales
  cases file with
  | none => exact stepwise.refl progress
  | some file =>
    simp only
    split
    · exact stepwise.setTexts progress _
    · exact stepwise.report progress _ _ _

private theorem moduleScript_related {file : Path} {locales : Option String} {source : Text}
    {outcome : Option Text}
    (done : context.moduleScript name file locales progress source = some (outcome, after)) :
    related progress after := by
  have passed := context.pass_related stepwise.toIgnoresNotes (some file) progress source
  unfold moduleScript at done
  cases result : context.pass (some file) progress source with
  | mk answer next =>
    rw [result] at done passed
    cases answer with
    | error violation =>
      cases done
      exact stepwise.trans passed (stepwise.report next _ _ _)
    | ok code =>
      simp only [bind_eq_bind, bind_eq_some_iff] at done
      obtain ⟨⟨own, last⟩, expanded, same⟩ := done
      cases same
      have localised := addLocales_related stepwise name (file.parent?.getD ⟨""⟩) locales
        (next.markFile file) code
      exact stepwise.trans (stepwise.trans passed (stepwise.markFile next file))
        (stepwise.trans localised (expandRequires_related (gathers_of_stepwise stepwise) expanded))

theorem useAll_related {use : Progress → String → Option (Text × Progress)}
    (each : ∀ {progress name text after}, use progress name = some (text, after) →
      related progress after) {names : List String}
    (done : useAll use progress names = some (text, after)) : related progress after := by
  induction names generalizing progress text with
  | nil =>
    cases done
    exact stepwise.refl _
  | cons name rest ih =>
    simp only [useAll, bind_eq_bind, bind_eq_some_iff] at done
    obtain ⟨⟨code, next⟩, used, ⟨others, last⟩, remaining, same⟩ := done
    cases same
    exact stepwise.trans (each used) (ih remaining)

private theorem useOne_related {inner : List String → Progress → String → Option (Text × Progress)}
    (each : ∀ {building progress name text after}, inner building progress name = some (text, after) →
      related progress after)
    (done : context.useOne inner building progress name = some (text, after)) :
    related progress after := by
  unfold useOne at done
  split at done
  · cases done
    exact stepwise.refl _
  rename_i wanted
  have known : name ∉ context.settings.ignored := by
    intro member
    simp [member] at wanted
  split at done
  · cases done
    exact stepwise.refl _
  split at done
  · cases done
    exact stepwise.deferModule progress name known
  split at done
  · cases done
    exact stepwise.report progress _ _ _
  dsimp only at done
  split at done
  · cases done
    exact stepwise.report progress _ _ _
  simp only [moduleCode, bind_eq_bind, bind_eq_some_iff] at done
  obtain ⟨⟨outcome, last⟩, ⟨⟨script, scripted⟩, begun, used⟩, same⟩ := done
  have started := moduleScript_related stepwise begun
  cases script with
  | none =>
    cases used
    cases same
    exact started
  | some script =>
    simp only [bind_eq_some_iff] at used
    obtain ⟨⟨dependencies, next⟩, ran, ended⟩ := used
    cases ended
    cases same
    exact stepwise.trans (stepwise.trans started (useAll_related stepwise each ran))
      (stepwise.markModule next name known)

theorem useModule_related {fuel : Nat}
    (done : context.useModule fuel building progress name = some (text, after)) :
    related progress after := by
  induction fuel generalizing building progress after name text with
  | zero => cases done
  | succ fuel ih => exact useOne_related stepwise ih done

theorem expand_related {code : Text} (done : context.expand base progress code = some (text, after)) :
    related progress after := by
  simp only [expand, bind_eq_bind, bind_eq_some_iff] at done
  obtain ⟨⟨required, next⟩, begun, used⟩ := done
  refine stepwise.trans (expandRequires_related (gathers_of_stepwise stepwise) begun) ?_
  refine Text.weave?_related _ stepwise.refl stepwise.trans ?_ used
  intro progress lexeme names written next stepped
  exact useAll_related stepwise (useModule_related stepwise) stepped

end Context

theorem Job.compile_related {job : Job} {related : Progress → Progress → Prop}
    (stepwise : Progress.Stepwise job.settings.ignored related) (tree : Tree) (compiler : Compiler) :
    related job.progress (job.compile tree compiler).2.progress := by
  have begun := job.begun_related stepwise.refl stepwise.markFile tree
  have passes {source : Text} {answer : Except Violation Text × Progress}
      (passed : (job.context tree compiler).pass (job.file? tree) (job.begun tree)
        (job.fullSource source) = answer) : related job.progress answer.2 :=
    passed ▸ stepwise.trans begun (Context.pass_related stepwise.toIgnoresNotes _ _ _ _)
  have compiled := job.compiles tree compiler
  generalize job.compile tree compiler = answer at compiled ⊢
  cases compiled with
  | unread _ => exact stepwise.refl _
  | violated _ failed => exact passes failed
  | endless _ passed _ => exact passes passed
  | ended _ passed expanded =>
    refine stepwise.trans (passes passed) ?_
    exact stepwise.trans (Context.expand_related stepwise expanded)
      (compiler.check_related stepwise.toIgnoresNotes _ _ _)

end PageScript
