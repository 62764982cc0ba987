import PageScript.Proofs.Compile.Fate
import PageScript.Proofs.Compile.Integrity

/-!
Each module and each file that a compilation meets is written, passed over for a reason, or noted,
unless its directive leads nowhere (`compile_accounts`).
-/

open List

namespace PageScript

open Text Directive Context Progress Option

/-- A `require` directive that is met: its flags, where relative paths start, its target, the state of the
job, what is written for it unless it stays, and the state that it leaves. -/
structure Demand where
  flags : InclusionFlags
  base : Path
  target : Text
  before : Progress
  written : Option Text
  after : Progress

/-- The use of a module that is met: the modules being built, its name, the state of the job, what is
written for it and the state that it leaves. -/
structure Use where
  building : List String
  name : String
  before : Progress
  text : Text
  after : Progress

variable {part script text source code : Text} {parts : List Text} {base file : Path}
  {progress after final : Progress} {use : Use} {fuel : Nat} {demand : Demand}
  {building names : List String}

namespace Progress

private theorem mem_markModule (progress : Progress) (name : String) :
    name ∈ (progress.markModule name).compiledModules := by
  unfold markModule
  split
  · rename_i known
    exact contains_iff_mem.mp known
  · exact mem_append_right _ mem_cons_self

private theorem mem_deferModule (progress : Progress) (name : String) :
    name ∈ (progress.deferModule name).deferredModules := by
  unfold deferModule
  split
  · rename_i known
    exact contains_iff_mem.mp known
  · exact mem_append_right _ mem_cons_self

theorem AppendedTo.subset {ignored before after : List String}
    (appended : AppendedTo ignored before after) : before ⊆ after := by
  obtain ⟨added, rfl, _⟩ := appended
  exact subset_append_left before added

end Progress

namespace Context

/-! ### Directives that are met -/

def requireStep (context : Context) (fuel : Nat) (base : Path) (progress : Progress) (lexeme : Text)
    (directive : Require) : Option (Text × Progress) := do
  let (written, progress) ← context.require (context.expandRequires fuel)
    (context.effectiveFlags directive) base progress (trim directive.target)
  return (written.getD lexeme, progress)

theorem expandRequires_eq (context : Context) (fuel : Nat) (base : Path) (progress : Progress)
    (code : Text) :
    context.expandRequires (fuel + 1) base progress code =
      weave? (context.requireStep fuel base) progress (cut Directive.require code) := rfl

/-- A directive of the script itself, reached when those before it have been dealt with. -/
inductive Reaches (context : Context) (fuel : Nat) (base : Path) (progress : Progress) (code : Text) :
    Demand → Prop
  | intro {left right : List (Piece Require)} {lexeme text : Text}
      {directive : Require} {before after : Progress} {written : Option Text}
      (cut : cut Directive.require code = left ++ .found lexeme directive :: right)
      (walked : weave? (context.requireStep fuel base) progress left = some (text, before))
      (dealt : context.require (context.expandRequires fuel) (context.effectiveFlags directive) base
        before (trim directive.target) = some (written, after)) :
      Reaches context fuel base progress code
        ⟨context.effectiveFlags directive, base, trim directive.target, before, written, after⟩

abbrev gathered (context : Context) (demand : Demand) (files : List Path) : List Inclusion × Progress :=
  context.gather demand.before (context.pendingFiles demand.flags demand.before files)

/-- A directive of the script or of a file that it includes. -/
inductive Demands (context : Context) : Nat → Path → Progress → Text → Demand → Prop
  | own {fuel : Nat} {base : Path} {progress : Progress} {code : Text} {demand : Demand}
      (reached : context.Reaches fuel base progress code demand) :
      Demands context (fuel + 1) base progress code demand
  | nested {fuel : Nat} {base : Path} {progress state : Progress} {code : Text}
      {outer demand : Demand} {files : List Path} {earlier later : List Inclusion}
      {inclusion : Inclusion} {parts : List Text}
      (reached : context.Reaches fuel base progress code outer)
      (named : context.targetFiles? outer.flags outer.base outer.target = some files)
      (listed : (context.gathered outer files).1 = earlier ++ inclusion :: later)
      (walked : expandAll (context.expandRequires fuel) (context.gathered outer files).2 earlier =
        some (parts, state))
      (met : Demands context fuel (inclusion.path.parent?.getD ⟨""⟩) state inclusion.code demand) :
      Demands context (fuel + 1) base progress code demand

/-! ### Modules that are met -/

structure Opens (context : Context) (use : Use) (module_ : Module) (source : Text) : Prop where
  wanted : use.name ∉ context.settings.ignored
  fresh : use.name ∉ use.before.compiledModules
  outside : use.name ∉ use.building
  allowed : context.settings.buildModules = true
  known : context.compiler.modules.get? use.name = some module_
  read : context.tree.read (context.moduleFile module_) = .ok source

inductive Takes (context : Context) (fuel : Nat) (building : List String) (progress : Progress)
    (names : List String) : Use → Prop
  | intro {earlier later : List String} {name : String} {text written : Text}
      {before after : Progress} (split : names = earlier ++ name :: later)
      (walked : useAll (context.useModule fuel building) progress earlier = some (text, before))
      (used : context.useModule fuel building before name = some (written, after)) :
      Takes context fuel building progress names ⟨building, name, before, written, after⟩

/-- A module of a list, or one that such a module uses. -/
inductive Uses (context : Context) : Nat → List String → Progress → List String → Use → Prop
  | own {fuel : Nat} {building names : List String} {progress : Progress} {use : Use}
      (taken : context.Takes fuel building progress names use) :
      Uses context fuel building progress names use
  | nested {fuel : Nat} {building names : List String} {progress state : Progress}
      {outer use : Use} {module_ : Module} {source script : Text}
      (taken : context.Takes (fuel + 1) building progress names outer)
      (opens : context.Opens outer module_ source)
      (scripted : context.moduleScript outer.name (context.moduleFile module_) module_.locale?
        outer.before source = some (some script, state))
      (met : Uses context fuel (outer.name :: outer.building) state
        ((usedModules script).map String.ofList) use) :
      Uses context (fuel + 1) building progress names use

/-! ### What stands in a script -/

def Stands (part script : Text) : Prop :=
  part <:+: script ∨ allBlank part = true

theorem Stands.within {middle : Text} (stands : Stands part middle) (within : middle <:+: script) :
    Stands part script :=
  stands.imp_left fun found => found.trans within

private theorem infix_join (member : part ∈ parts) (sep : Text) : part <:+: join sep parts := by
  induction parts with
  | nil => cases member
  | cons first rest ih =>
    rw [join_cons]
    rcases mem_cons.mp member with rfl | later
    · rw [append_assoc]
      exact (prefix_append part _).isInfix
    · exact (ih later).trans (suffix_append _ _).isInfix

theorem Stands.assembled {own : Text} (stands : Stands part own) (member : own ∈ parts)
    (flags : InclusionFlags) : Stands part (assembleParts flags parts) := by
  have joined : Stands part (join ['\n'] parts) := stands.within (infix_join member _)
  unfold assembleParts
  dsimp only
  split
  · rename_i blank
    rcases joined with ⟨before, after, same⟩ | alone
    · refine .inr (allBlank_iff.mpr fun c within => ?_)
      rw [← same, allBlank_iff] at blank
      exact blank c (by simp [within])
    · exact .inr alone
  · split
    · exact joined
    · exact joined.within ⟨_, _, rfl⟩

/-! ### Steps -/

section

variable {context : Context} {flags : InclusionFlags} {written : Option Text} {expand : Expander}

/-- A directive that leads nowhere stays, and so does one for a single file that cannot be read, which is
marked all the same. Otherwise the files that are brought in take its place. -/
theorem require_cases {target : Text}
    (done : context.require expand flags base progress target = some (written, after)) :
    (context.targetFiles? flags base target = none ∧ written = none ∧ after = progress) ∨
    (∃ file fault, context.targetFiles? flags base target = some [file] ∧
      context.tree.read (context.tree.canonical file) = .error fault ∧ written = none ∧
      after = progress.markFile (context.tree.canonical file)) ∨
    ∃ files parts, context.targetFiles? flags base target = some files ∧
      expandAll expand (context.gather progress (context.pendingFiles flags progress files)).2
        (context.gather progress (context.pendingFiles flags progress files)).1 =
          some (parts, after) ∧
      written = some (assembleParts flags parts) := by
  unfold require at done
  cases found : context.targetFiles? flags base target with
  | none =>
    rw [found] at done
    cases done
    exact .inl ⟨rfl, rfl, rfl⟩
  | some files =>
    rw [found] at done
    dsimp only at done
    split at done
    · rename_i alone
      cases done
      obtain ⟨⟨one, _⟩, unreadable⟩ := alone
      obtain ⟨only, rfl⟩ := length_eq_one_iff.mp one
      obtain ⟨file, within, failed⟩ := any_eq_true.mp unreadable
      have same : file = context.tree.canonical only :=
        mem_singleton.mp (mem_of_mem_filter within)
      have pending : context.pendingFiles flags progress [only] = [context.tree.canonical only] := by
        have passes := (mem_filter.mp within).2
        rw [same] at passes
        exact filter_cons_of_pos passes
      rw [same] at failed
      cases read : context.tree.read (context.tree.canonical only) with
      | ok source =>
        rw [read] at failed
        cases failed
      | error fault =>
        refine .inr (.inl ⟨only, fault, rfl, read, rfl, ?_⟩)
        rw [pending]
        rfl
    · simp only [bind_eq_bind, bind_eq_some_iff] at done
      obtain ⟨⟨parts, last⟩, expanded, same⟩ := done
      cases same
      exact .inr (.inr ⟨files, parts, rfl, expanded, rfl⟩)

private theorem expandAll_split {earlier later : List Inclusion} {inclusion : Inclusion}
    (done : expandAll expand progress (earlier ++ inclusion :: later) = some (parts, final)) :
    ∃ before state part next after,
      expandAll expand progress earlier = some (before, state) ∧
      expand (inclusion.path.parent?.getD ⟨""⟩) state inclusion.code = some (part, next) ∧
      expandAll expand next later = some (after, final) ∧
      parts = before ++ part :: after := by
  induction earlier generalizing progress parts with
  | nil =>
    simp only [nil_append, expandAll, bind_eq_bind, bind_eq_some_iff] at done
    obtain ⟨⟨part, next⟩, expanded, ⟨after, last⟩, remaining, same⟩ := done
    cases same
    exact ⟨[], progress, part, next, after, rfl, expanded, remaining, rfl⟩
  | cons first rest ih =>
    simp only [cons_append, expandAll, bind_eq_bind, bind_eq_some_iff] at done
    obtain ⟨⟨code, reached⟩, expanded, ⟨others, last⟩, remaining, same⟩ := done
    cases same
    obtain ⟨before, state, part, next, after, walked, own, more, rfl⟩ := ih remaining
    refine ⟨code :: before, state, part, next, after, ?_, own, more, rfl⟩
    simp only [expandAll, expanded, walked, bind_eq_bind, bind_some]
    rfl

theorem useAll_split {use : Progress → String → Option (Text × Progress)} {earlier later : List String}
    {name : String} (done : useAll use progress (earlier ++ name :: later) = some (text, final)) :
    ∃ before state own next after,
      useAll use progress earlier = some (before, state) ∧
      use state name = some (own, next) ∧
      useAll use next later = some (after, final) ∧
      text = before ++ own ++ after := by
  induction earlier generalizing progress text with
  | nil =>
    simp only [nil_append, useAll, bind_eq_bind, bind_eq_some_iff] at done
    obtain ⟨⟨own, next⟩, used, ⟨after, last⟩, remaining, same⟩ := done
    cases same
    exact ⟨[], progress, own, next, after, rfl, used, remaining, rfl⟩
  | cons first rest ih =>
    simp only [cons_append, useAll, bind_eq_bind, bind_eq_some_iff] at done
    obtain ⟨⟨code, reached⟩, used, ⟨others, last⟩, remaining, same⟩ := done
    cases same
    obtain ⟨before, state, own, next, after, walked, taken, more, rfl⟩ := ih remaining
    refine ⟨code ++ before, state, own, next, after, ?_, taken, more, ?_⟩
    · simp only [useAll, used, walked, bind_eq_bind, bind_some]
      rfl
    · simp only [append_assoc]

private theorem useOne_opened {inner : List String → Progress → String → Option (Text × Progress)}
    {module_ : Module} (opens : context.Opens use module_ source)
    (done : context.useOne inner use.building use.before use.name = some (use.text, use.after)) :
    ∃ outcome state,
      context.moduleScript use.name (context.moduleFile module_) module_.locale? use.before source =
        some (outcome, state) ∧
      ((outcome = none ∧ use.text = [] ∧ use.after = state) ∨
      ∃ script dependencies next, outcome = some script ∧
        useAll (inner (use.name :: use.building)) state
          ((usedModules script).map String.ofList) = some (dependencies, next) ∧
        use.text = dependencies ++ dropUses script ++ ['\n'] ∧
        use.after = next.markModule use.name) := by
  have considered : ¬ (context.settings.ignored.contains use.name ||
      use.before.compiledModules.contains use.name) = true := by
    simp [opens.wanted, opens.fresh]
  have outside : ¬ use.building.contains use.name = true := by
    simp [opens.outside]
  have allowed : ¬ (! context.settings.buildModules) = true := by
    simp [opens.allowed]
  rw [useOne, if_neg considered, if_neg outside, if_neg allowed, opens.known] at done
  dsimp only at done
  rw [opens.read] at done
  simp only [moduleCode, bind_eq_bind, bind_eq_some_iff] at done
  obtain ⟨⟨code, last⟩, ⟨⟨outcome, state⟩, scripted, used⟩, same⟩ := done
  refine ⟨outcome, state, scripted, ?_⟩
  cases outcome with
  | none =>
    cases used
    obtain ⟨text, after⟩ := Prod.mk.inj (some.inj same)
    exact .inl ⟨rfl, text.symm, after.symm⟩
  | some script =>
    simp only [bind_eq_some_iff] at used
    obtain ⟨⟨dependencies, next⟩, ran, ended⟩ := used
    cases ended
    obtain ⟨text, after⟩ := Prod.mk.inj (some.inj same)
    exact .inr ⟨script, dependencies, next, rfl, ran, text.symm, after.symm⟩

/-! ### What is met lies within the run -/

theorem Reaches.within (reached : context.Reaches fuel base progress code demand)
    (done : context.expandRequires (fuel + 1) base progress code = some (script, final)) :
    Advances context.settings.ignored demand.after final ∧
    ∀ part, Stands part (demand.written.getD []) → Stands part script := by
  obtain @⟨left, right, lexeme, text, directive, before, after, written, cut, walked, dealt⟩ := reached
  rw [expandRequires_eq, cut] at done
  obtain ⟨_, _, own, next, rest, first, stepped, remaining, rfl⟩ := weave?_split _ done
  cases walked.symm.trans first
  unfold requireStep at stepped
  rw [dealt] at stepped
  cases stepped
  have gathers : context.Gathers _ := gathers_of_stepwise (Advances.stepwise context.settings.ignored)
  constructor
  · refine weave?_related _ gathers.refl gathers.trans ?_ remaining
    intro progress lexeme directive written next stepped
    simp only [requireStep, bind_eq_bind, bind_eq_some_iff] at stepped
    obtain ⟨⟨own, last⟩, required, same⟩ := stepped
    cases same
    exact require_related gathers (expandRequires_related gathers) required
  · intro part stands
    cases written with
    | none =>
      rcases stands with found | blank
      · rw [eq_nil_of_infix_nil found]
        exact .inr rfl
      · exact .inr blank
    | some written => exact stands.within ⟨_, _, rfl⟩

theorem Demands.within (met : context.Demands fuel base progress code demand)
    (done : context.expandRequires fuel base progress code = some (script, final)) :
    Advances context.settings.ignored demand.after final ∧
    ∀ part, Stands part (demand.written.getD []) → Stands part script := by
  induction met generalizing script final with
  | own reached => exact reached.within done
  | @nested fuel base progress state code outer demand files earlier later inclusion parts reached
      named listed walked met ih =>
      obtain ⟨onward, outward⟩ := reached.within done
      obtain @⟨left, right, lexeme, text, directive, before, after, written, cut, begun, dealt⟩ := reached
      rcases require_cases dealt with
        ⟨nowhere, _⟩ | ⟨file, fault, only, failed, _⟩ | ⟨others, all, found, expanded, rfl⟩
      · cases named.symm.trans nowhere
      · -- a file that cannot be read is no inclusion
        cases named.symm.trans only
        have member : inclusion ∈ earlier ++ inclusion :: later :=
          mem_append_right _ mem_cons_self
        rw [← listed] at member
        obtain ⟨pending, known⟩ := context.gather_mem _ _ member
        obtain ⟨source, read, _⟩ := fileCode?_eq_some.mp known
        rw [mem_singleton.mp (mem_of_mem_filter pending), failed] at read
        cases read
      · cases named.symm.trans found
        have expanded := expanded
        rw [listed] at expanded
        obtain ⟨_, _, own, next, rest, first, inner, remaining, rfl⟩ := expandAll_split expanded
        cases walked.symm.trans first
        obtain ⟨inward, stands⟩ := ih inner
        have gathers : context.Gathers _ := gathers_of_stepwise (Advances.stepwise context.settings.ignored)
        have rest := expandAll_related gathers (expandRequires_related gathers) remaining
        refine ⟨(inward.trans rest).trans onward, fun part found => outward part ?_⟩
        exact (stands part found).assembled (mem_append_right _ mem_cons_self) _

theorem Takes.within (taken : context.Takes fuel building progress names use)
    (done : useAll (context.useModule fuel building) progress names = some (text, final)) :
    Advances context.settings.ignored use.after final ∧ use.text <:+: text := by
  obtain @⟨earlier, later, name, written, own, before, after, rfl, walked, used⟩ := taken
  obtain ⟨_, _, _, next, rest, first, again, remaining, rfl⟩ := useAll_split done
  cases walked.symm.trans first
  cases used.symm.trans again
  have stepwise := Advances.stepwise context.settings.ignored
  exact ⟨useAll_related stepwise (useModule_related stepwise) remaining, _, _, rfl⟩

theorem Uses.within (met : context.Uses fuel building progress names use)
    (done : useAll (context.useModule fuel building) progress names = some (text, final)) :
    Advances context.settings.ignored use.after final ∧ use.text <:+: text := by
  induction met generalizing text final with
  | own taken => exact taken.within done
  | @nested fuel building names progress state outer use module_ source script taken opens scripted met
      ih =>
      obtain ⟨onward, outward⟩ := taken.within done
      obtain @⟨earlier, later, name, written, own, before, after, split, walked, used⟩ := taken
      obtain ⟨outcome, _, again, ended⟩ := useOne_opened opens used
      cases scripted.symm.trans again
      rcases ended with ⟨absurdity, _⟩ | ⟨_, dependencies, next, same, ran, textIs, afterIs⟩
      · cases absurdity
      · cases same
        obtain ⟨inward, stands⟩ := ih ran
        have marked := markModule_advances opens.wanted next
        dsimp only at textIs afterIs marked onward outward
        rw [← afterIs] at marked
        refine ⟨(inward.trans marked).trans onward, stands.trans (List.IsInfix.trans ?_ outward)⟩
        rw [textIs, append_assoc]
        exact (prefix_append _ _).isInfix

private theorem moduleScript_advances {module_ : Module} {state : Progress}
    (opens : context.Opens use module_ source)
    (scripted : context.moduleScript use.name (context.moduleFile module_) module_.locale? use.before
      source = some (some script, state))
    (done : context.useModule fuel use.building use.before use.name = some (use.text, use.after)) :
    Advances context.settings.ignored state use.after := by
  cases fuel with
  | zero => cases done
  | succ fuel =>
    obtain ⟨_, _, again, ended⟩ := useOne_opened opens done
    cases scripted.symm.trans again
    rcases ended with ⟨none, _⟩ | ⟨_, _, next, _, ran, _, after⟩
    · cases none
    · have stepwise := Advances.stepwise context.settings.ignored
      rw [after]
      exact (useAll_related stepwise (useModule_related stepwise) ran).trans
        (markModule_advances opens.wanted next)

private theorem useDirectives_advances {pieces : List (Piece (List Text))}
    (done : context.useDirectives progress pieces = some (text, after)) :
    Advances context.settings.ignored progress after := by
  have stepwise := Advances.stepwise context.settings.ignored
  refine weave?_related _ stepwise.refl stepwise.trans ?_ done
  intro progress lexeme names written next stepped
  exact useAll_related stepwise (useModule_related stepwise) stepped

theorem Uses.ran (met : context.Uses fuel building progress names use) :
    ∃ fuel, context.useModule fuel use.building use.before use.name = some (use.text, use.after) := by
  induction met with
  | own taken =>
    obtain @⟨earlier, later, name, written, own, before, after, split, walked, used⟩ := taken
    exact ⟨_, used⟩
  | nested taken opens scripted met ih => exact ih

theorem Demands.ran (met : context.Demands fuel base progress code demand) :
    ∃ fuel, context.require (context.expandRequires fuel) demand.flags demand.base demand.before
      demand.target = some (demand.written, demand.after) := by
  induction met with
  | own reached =>
    obtain @⟨left, right, lexeme, text, directive, before, after, written, cut, walked, dealt⟩ := reached
    exact ⟨_, dealt⟩
  | nested reached named listed walked met ih => exact ih

/-! ### Fates -/

/-- What becomes of a file that a directive names, where the directive belongs to a script and certain
diagnostics are noted in the end. -/
inductive FileFate (context : Context) (demand : Demand) (script : Text) (notes : List Diagnostic)
    (file : Path) : Prop
  | compiled (unforced : demand.flags.force = false)
      (before : demand.before.isCompiled file = true)
  | unreadable (fault : IoFault) (failed : context.tree.read file = .error fault)
      (silent : Silent file demand.before demand.after)
  | violating (source : Text) (violation : Violation) (read : context.tree.read file = .ok source)
      (failed : (context.pass (some file) {} source).1 = .error violation)
      (noted : violation.note (some file) ∈ notes)
  | dropped (name : String) (first second : Path)
      (noted : Inclusion.clashNote name first second file ∈ notes)
  | written (parts : List Text) (part : Text)
      (whole : demand.written = some (assembleParts demand.flags parts)) (member : part ∈ parts)
      (inlined : context.Inlined file part) (stands : Stands part script)

/-- What becomes of a module that is used, where the result and the state in the end are these. -/
inductive UseFate (context : Context) (use : Use) (result : Text) (final : Progress) : Prop
  | ignored (member : use.name ∈ context.settings.ignored)
  | compiled (member : use.name ∈ use.before.compiledModules)
  | cyclic (member : use.name ∈ use.building)
  | deferred (off : context.settings.buildModules = false) (member : use.name ∈ final.deferredModules)
  | unknown (missing : context.compiler.modules.get? use.name = none)
      (noted : ⟨.resolution, s!"module {use.name} not found", none⟩ ∈ final.diagnostics)
  | unreadable (module_ : Module) (fault : IoFault)
      (known : context.compiler.modules.get? use.name = some module_)
      (failed : context.tree.read (context.moduleFile module_) = .error fault)
      (noted : ⟨.resolution, s!"module {use.name} unreadable: {fault.message}",
        some (context.moduleFile module_).text⟩ ∈ final.diagnostics)
  | violating (module_ : Module) (source : Text) (violation : Violation)
      (opens : context.Opens use module_ source)
      (failed : (context.pass (some (context.moduleFile module_)) {} source).1 = .error violation)
      (noted : violation.note (some (context.moduleFile module_)) ∈ final.diagnostics)
  | built (module_ : Module) (source script dependencies : Text)
      (opens : context.Opens use module_ source)
      (whole : use.text = dependencies ++ dropUses script ++ ['\n'])
      (stands : use.text <:+: result) (member : use.name ∈ final.compiledModules)

/-- Every file that a directive names has its fate, as soon as what is written for the directive is found
in the script and what is noted then stays noted. -/
theorem fileFate_of_require {files : List Path}
    (done : context.require (context.expandRequires fuel) demand.flags demand.base demand.before
      demand.target = some (demand.written, demand.after))
    (onward : Advances context.settings.ignored demand.after final)
    (outward : ∀ part, Stands part (demand.written.getD []) → Stands part script)
    (named : context.targetFiles? demand.flags demand.base demand.target = some files)
    (member : file ∈ files.map context.tree.canonical) :
    context.FileFate demand script final.diagnostics file := by
  have silent {fault : IoFault} (failed : context.tree.read file = .error fault) :=
    require_related (gathers_silent failed) (expandRequires_related (gathers_silent failed)) done
  by_cases pending : file ∈ context.pendingFiles demand.flags demand.before files
  · rcases require_cases done with
      ⟨nowhere, _⟩ | ⟨only, fault, single, failed, _⟩ | ⟨_, parts, found, expanded, whole⟩
    · cases named.symm.trans nowhere
    · cases named.symm.trans single
      rw [← mem_singleton.mp member] at failed
      exact .unreadable fault failed (silent failed)
    cases named.symm.trans found
    have gathers : context.Gathers _ := gathers_of_stepwise (Advances.stepwise context.settings.ignored)
    have brought := expandAll_related gathers (expandRequires_related gathers) expanded
    have kept := (brought.trans onward).grows.diagnostics.subset
    rcases context.gather_fate demand.before pending with
      ⟨fault, failed⟩ | ⟨source, violation, read, failed, noted⟩ | ⟨name, first, second, noted⟩ |
      ⟨inclusion, within, rfl⟩
    · exact .unreadable fault failed (silent failed)
    · exact .violating source violation read failed (kept noted)
    · exact .dropped name first second (kept noted)
    · have known := (context.gather_mem _ _ within).2
      obtain ⟨earlier, later, split⟩ := append_of_mem within
      rw [split] at expanded
      obtain ⟨before, state, part, next, after, _, own, _, rfl⟩ := expandAll_split expanded
      have listed : part ∈ before ++ part :: after := mem_append_right _ mem_cons_self
      have found : Stands part part := .inl (infix_refl part)
      have stands := found.assembled listed demand.flags
      rw [whole] at outward
      exact .written _ part whole listed ⟨inclusion.code, fuel, state, next, known, own⟩
        (outward part stands)
  · have passed : ¬ (demand.flags.force || ! demand.before.isCompiled file) = true :=
      fun passes => pending (mem_filter.mpr ⟨member, passes⟩)
    rw [Bool.or_eq_true, not_or, Bool.not_eq_true, Bool.not_eq_true', Bool.not_eq_false] at passed
    exact .compiled passed.1 passed.2

private theorem moduleScript_eq_none {name : String} {locales : Option String} {state : Progress}
    (done : context.moduleScript name file locales progress source = some (none, state)) :
    ∃ violation, (context.pass (some file) {} source).1 = .error violation ∧
      violation.note (some file) ∈ state.diagnostics := by
  have same := context.pass_fst (some file) progress {} source
  unfold moduleScript at done
  cases passed : context.pass (some file) progress source with
  | mk answer next =>
    rw [passed] at done same
    cases answer with
    | error violation =>
      cases done
      exact ⟨violation, same.symm, mem_append_right _ mem_cons_self⟩
    | ok code =>
      simp only [bind_eq_bind, bind_eq_some_iff] at done
      obtain ⟨_, _, none⟩ := done
      cases none

private theorem useFate_of_useModule {result : Text}
    (done : context.useModule fuel use.building use.before use.name = some (use.text, use.after))
    (onward : Advances context.settings.ignored use.after final) (stands : use.text <:+: result) :
    context.UseFate use result final := by
  cases fuel with
  | zero => cases done
  | succ fuel =>
    by_cases ignored : use.name ∈ context.settings.ignored
    · exact .ignored ignored
    by_cases compiled : use.name ∈ use.before.compiledModules
    · exact .compiled compiled
    by_cases nested : use.name ∈ use.building
    · exact .cyclic nested
    have considered : ¬ (context.settings.ignored.contains use.name ||
        use.before.compiledModules.contains use.name) = true := by
      simp [ignored, compiled]
    have outside : ¬ use.building.contains use.name = true := by
      simp [nested]
    have reached := done
    rw [useModule, useOne, if_neg considered, if_neg outside] at reached
    cases allowed : context.settings.buildModules with
    | false =>
      rw [allowed, Bool.not_false, if_pos rfl] at reached
      obtain ⟨_, after⟩ := Prod.mk.inj (some.inj reached)
      refine .deferred allowed (onward.grows.deferred.subset ?_)
      rw [← after]
      exact use.before.mem_deferModule use.name
    | true =>
      rw [allowed, Bool.not_true, if_neg Bool.false_ne_true] at reached
      cases known : context.compiler.modules.get? use.name with
      | none =>
        rw [known] at reached
        obtain ⟨_, after⟩ := Prod.mk.inj (some.inj reached)
        refine .unknown known (onward.grows.diagnostics.subset ?_)
        rw [← after]
        exact mem_append_right _ mem_cons_self
      | some module_ =>
        rw [known] at reached
        dsimp only at reached
        cases read : context.tree.read (context.moduleFile module_) with
        | error fault =>
          rw [read] at reached
          obtain ⟨_, after⟩ := Prod.mk.inj (some.inj reached)
          refine .unreadable module_ fault known read (onward.grows.diagnostics.subset ?_)
          rw [← after]
          exact mem_append_right _ mem_cons_self
        | ok source =>
          have opens : context.Opens use module_ source :=
            ⟨ignored, compiled, nested, allowed, known, read⟩
          obtain ⟨outcome, state, scripted, ended⟩ := useOne_opened opens done
          rcases ended with
            ⟨rfl, _, after⟩ | ⟨script, dependencies, next, rfl, _, whole, after⟩
          · obtain ⟨violation, failed, noted⟩ := moduleScript_eq_none scripted
            rw [← after] at noted
            exact .violating module_ source violation opens failed
              (onward.grows.diagnostics.subset noted)
          · refine .built module_ source script dependencies opens whole stands
              (onward.grows.modules.subset ?_)
            rw [after]
            exact next.mem_markModule use.name

end

end Context

namespace Job

def Starts (job : Job) (tree : Tree) (compiler : Compiler) (code : Text) (progress : Progress) : Prop :=
  ∃ source own, job.settings.source tree = .ok source ∧
    (job.context tree compiler).pass (job.file? tree) (job.begun tree) (job.fullSource source) =
      (.ok own, progress) ∧
    code = if job.settings.wrap then isolated own else own

/-- A module that the compilation of a job meets. -/
inductive MeetsModule (job : Job) (tree : Tree) (compiler : Compiler) : Use → Prop
  | intro {code script text lexeme : Text} {progress state before : Progress}
      {left right : List (Piece (List Text))} {names : List Text} {use : Use}
      (starts : job.Starts tree compiler code progress)
      (required : (job.context tree compiler).expandRequires
        (job.context tree compiler).requireFuel job.settings.folder progress code =
          some (script, state))
      (cut : cut Directive.use script = left ++ .found lexeme names :: right)
      (walked : (job.context tree compiler).useDirectives state left = some (text, before))
      (met : (job.context tree compiler).Uses (job.context tree compiler).useFuel [] before
        (names.map String.ofList) use) :
      MeetsModule job tree compiler use

/-- A `require` directive that the compilation of a job meets, with the script it belongs to: that of the
job or of a module, after all files are written into it. -/
inductive MeetsFiles (job : Job) (tree : Tree) (compiler : Compiler) : Demand → Text → Prop
  | script {code script : Text} {progress state : Progress} {demand : Demand}
      (starts : job.Starts tree compiler code progress)
      (required : (job.context tree compiler).expandRequires
        (job.context tree compiler).requireFuel job.settings.folder progress code =
          some (script, state))
      (met : (job.context tree compiler).Demands (job.context tree compiler).requireFuel
        job.settings.folder progress code demand) :
      MeetsFiles job tree compiler demand script
  | module {use : Use} {module_ : Module} {source passed code script : Text}
      {next progress state : Progress} {demand : Demand}
      (used : job.MeetsModule tree compiler use)
      (opens : (job.context tree compiler).Opens use module_ source)
      (passes : (job.context tree compiler).pass
        (some ((job.context tree compiler).moduleFile module_)) use.before source = (.ok passed, next))
      (localised : (job.context tree compiler).addLocales use.name
        (((job.context tree compiler).moduleFile module_).parent?.getD ⟨""⟩) module_.locale?
        (next.markFile ((job.context tree compiler).moduleFile module_)) passed = (code, progress))
      (required : (job.context tree compiler).expandRequires
        (job.context tree compiler).requireFuel
        (((job.context tree compiler).moduleFile module_).parent?.getD ⟨""⟩) progress code =
          some (script, state))
      (met : (job.context tree compiler).Demands (job.context tree compiler).requireFuel
        (((job.context tree compiler).moduleFile module_).parent?.getD ⟨""⟩) progress code demand) :
      MeetsFiles job tree compiler demand script

section

variable {job : Job} {tree : Tree} {compiler : Compiler}

theorem MeetsModule.ran (met : job.MeetsModule tree compiler use) :
    ∃ fuel, (job.context tree compiler).useModule fuel use.building use.before use.name =
      some (use.text, use.after) := by
  cases met with
  | intro starts required cut walked uses => exact uses.ran

theorem MeetsFiles.ran (met : job.MeetsFiles tree compiler demand script) :
    ∃ fuel, (job.context tree compiler).require ((job.context tree compiler).expandRequires fuel)
      demand.flags demand.base demand.before demand.target = some (demand.written, demand.after) := by
  cases met with
  | script starts required demands => exact demands.ran
  | module used opens passes localised required demands => exact demands.ran

theorem Starts.unique {other : Text} {next : Progress} (starts : job.Starts tree compiler code progress)
    (again : job.Starts tree compiler other next) : code = other ∧ progress = next := by
  obtain ⟨source, own, given, passed, rfl⟩ := starts
  obtain ⟨_, _, same, repeated, rfl⟩ := again
  cases given.symm.trans same
  cases passed.symm.trans repeated
  exact ⟨rfl, rfl⟩

theorem compile_expands {done : Job} (compiled : job.compile tree compiler = (.ok text, done)) :
    ∃ code progress result state, job.Starts tree compiler code progress ∧
      (job.context tree compiler).expand job.settings.folder progress code = some (result, state) ∧
      text = job.settings.finish state result ∧
      Advances job.settings.ignored state done.progress := by
  have ended := job.compiles tree compiler
  rw [compiled] at ended
  cases ended with
  | ended given passed expanded =>
    exact ⟨_, _, _, _, ⟨_, _, given, passed, rfl⟩, expanded, rfl,
      compiler.check_related (Advances.stepwise _).toIgnoresNotes _ _ _⟩

variable {code result : Text} {progress state : Progress}
  (starts : job.Starts tree compiler code progress)
  (expanded : (job.context tree compiler).expand job.settings.folder progress code =
    some (result, state))

include starts expanded

theorem MeetsModule.within (met : job.MeetsModule tree compiler use) :
    Advances job.settings.ignored use.after state ∧ use.text <:+: result := by
  obtain @⟨_, script, first, lexeme, _, begun, before, left, right, names, use, again, required, cut,
    walked, uses⟩ := met
  obtain ⟨rfl, rfl⟩ := starts.unique again
  simp only [expand, bind_eq_bind, bind_eq_some_iff] at expanded
  obtain ⟨_, repeated, rest⟩ := expanded
  cases required.symm.trans repeated
  dsimp only [expandUses] at rest
  rw [cut] at rest
  obtain ⟨_, _, own, next, last, reached, used, remaining, rfl⟩ := weave?_split _ rest
  cases walked.symm.trans reached
  obtain ⟨inward, stands⟩ := uses.within used
  exact ⟨inward.trans (useDirectives_advances remaining), stands.trans ⟨_, _, rfl⟩⟩

theorem MeetsFiles.within (met : job.MeetsFiles tree compiler demand script) :
    Advances job.settings.ignored demand.after state ∧
    ∀ part, Stands part (demand.written.getD []) → Stands part script := by
  cases met with
  | script again required demands =>
    obtain ⟨rfl, rfl⟩ := starts.unique again
    obtain ⟨inward, stands⟩ := demands.within required
    simp only [expand, bind_eq_bind, bind_eq_some_iff] at expanded
    obtain ⟨_, repeated, rest⟩ := expanded
    cases required.symm.trans repeated
    exact ⟨inward.trans (useDirectives_advances rest), stands⟩
  | @module use module_ source passed _ _ next _ scripted _ used opens passes localised required
      demands =>
      obtain ⟨inward, stands⟩ := demands.within required
      have script : (job.context tree compiler).moduleScript use.name
          ((job.context tree compiler).moduleFile module_) module_.locale? use.before source =
            some (some script, scripted) := by
        unfold moduleScript
        rw [passes]
        dsimp only
        rw [localised]
        dsimp only
        rw [required]
        rfl
      obtain ⟨onward, _⟩ := used.within starts expanded
      obtain ⟨fuel, ran⟩ := used.ran
      exact ⟨(inward.trans (moduleScript_advances opens script ran)).trans onward, stands⟩

end

/-- A compilation that succeeds has dealt with everything that it met. A directive that leads nowhere
stays, and nothing is noted. A file that a directive names is written in its place, or was compiled before,
or is noted; only if it cannot be read, nothing is noted. A module is built, or skipped for a reason, or
noted. -/
theorem compile_accounts {job done : Job} {tree : Tree} {compiler : Compiler} {text : Text}
    (compiled : job.compile tree compiler = (.ok text, done)) :
    ∃ result state, text = job.settings.finish state result ∧
      (∀ demand script, job.MeetsFiles tree compiler demand script →
        ((job.context tree compiler).targetFiles? demand.flags demand.base demand.target = none →
          demand.written = none ∧ demand.after = demand.before) ∧
        ∀ files,
          (job.context tree compiler).targetFiles? demand.flags demand.base demand.target = some files →
          ∀ file ∈ files.map tree.canonical,
            (job.context tree compiler).FileFate demand script done.progress.diagnostics file) ∧
      ∀ use, job.MeetsModule tree compiler use →
        (job.context tree compiler).UseFate use result done.progress := by
  obtain ⟨code, progress, result, state, starts, expanded, whole, checked⟩ := compile_expands compiled
  refine ⟨result, state, whole, ?_, ?_⟩
  · intro demand script met
    obtain ⟨onward, outward⟩ := met.within starts expanded
    obtain ⟨fuel, ran⟩ := met.ran
    refine ⟨fun nowhere => ?_, fun files named file member => ?_⟩
    · rcases Context.require_cases ran with ⟨_, stays, same⟩ | ⟨_, _, found, _⟩ | ⟨_, _, found, _⟩
      · exact ⟨stays, same⟩
      · cases nowhere.symm.trans found
      · cases nowhere.symm.trans found
    · exact Context.fileFate_of_require ran (onward.trans checked) outward named member
  · intro use met
    obtain ⟨onward, stands⟩ := met.within starts expanded
    obtain ⟨fuel, ran⟩ := met.ran
    exact Context.useFate_of_useModule ran (onward.trans checked) stands

def partialTree : Tree where
  entries := [(["a.js"], .file "aa();".toList)]
  home := []

def partialCompiler : Compiler where
  modules := { root := ⟨"/"⟩, modules := [] }
  widgets := .empty

def partialScript : Text := "@lx:require -U \x7bmissing, a\x7d;\n@lx:use M;".toList

def partialJob : Job where
  settings := { side := .client, base := some ⟨"/"⟩, code := some partialScript }

def partialContext : Context :=
  partialJob.context partialTree partialCompiler

def partialProgress : Progress :=
  (partialContext.pass none {} (partialScript ++ ['\n'])).2

private theorem partialJob_starts :
    partialJob.Starts partialTree partialCompiler (partialScript ++ ['\n']) partialProgress := by
  have passed : (partialContext.pass none {} (partialScript ++ ['\n'])).1 =
      .ok (partialScript ++ ['\n']) := by
    decide +kernel
  exact ⟨partialScript, partialScript ++ ['\n'], rfl, Prod.ext passed rfl, rfl⟩

private theorem partialJob_meets :
    ∃ demand script, partialJob.MeetsFiles partialTree partialCompiler demand script ∧
      partialContext.targetFiles? demand.flags demand.base demand.target =
        some [⟨"/missing.js"⟩, ⟨"/a.js"⟩] := by
  let directive : Require := ⟨some "-U".toList, "\x7bmissing, a\x7d".toList⟩
  have cut : cut Directive.require (partialScript ++ ['\n']) =
      [] ++ .found "@lx:require -U \x7bmissing, a\x7d;".toList directive ::
        "\n@lx:use M;\n".toList.map .plain := rfl
  obtain ⟨⟨script, state⟩, required⟩ : ∃ answer, partialContext.expandRequires
      partialContext.requireFuel ⟨"/"⟩ partialProgress (partialScript ++ ['\n']) = some answer :=
    isSome_iff_exists.mp (by decide +kernel)
  obtain ⟨fuel, enough⟩ : ∃ fuel, partialContext.requireFuel = fuel + 1 := ⟨_, rfl⟩
  have woven := required
  rw [enough, expandRequires_eq, cut] at woven
  obtain ⟨before, start, written, next, rest, walked, stepped, _⟩ := weave?_split _ woven
  simp only [requireStep, bind_eq_bind, bind_eq_some_iff] at stepped
  obtain ⟨⟨own, last⟩, dealt, _⟩ := stepped
  have met : partialContext.Demands partialContext.requireFuel ⟨"/"⟩ partialProgress
      (partialScript ++ ['\n']) ⟨partialContext.effectiveFlags directive, ⟨"/"⟩,
        trim directive.target, start, own, last⟩ := by
    rw [enough]
    exact .own (.intro cut walked dealt)
  have named : partialContext.targetFiles? (partialContext.effectiveFlags directive) ⟨"/"⟩
      (trim directive.target) = some [⟨"/missing.js"⟩, ⟨"/a.js"⟩] := by
    decide +kernel
  exact ⟨_, script, .script partialJob_starts required met, named⟩

/-- The missing module is noted, the missing file is not. -/
theorem compile_accounts_partial :
    ∃ done, partialJob.compile partialTree partialCompiler = (.ok "aa();\n\n".toList, done) ∧
      done.progress.diagnostics = [⟨.resolution, "module M not found", none⟩] ∧
      ∃ demand script, partialJob.MeetsFiles partialTree partialCompiler demand script ∧
        partialContext.targetFiles? demand.flags demand.base demand.target =
          some [⟨"/missing.js"⟩, ⟨"/a.js"⟩] ∧
        (partialTree.read ⟨"/missing.js"⟩).toOption = none ∧
        ∀ file ∈ [⟨"/missing.js"⟩, ⟨"/a.js"⟩],
          partialContext.FileFate demand script done.progress.diagnostics file := by
  have answer : (partialJob.compile partialTree partialCompiler).1 = .ok "aa();\n\n".toList := by
    decide +kernel
  have compiled : partialJob.compile partialTree partialCompiler =
      (.ok "aa();\n\n".toList, (partialJob.compile partialTree partialCompiler).2) :=
    Prod.ext answer rfl
  obtain ⟨result, state, _, files, _⟩ := compile_accounts compiled
  obtain ⟨demand, script, met, named⟩ := partialJob_meets
  have canonical : [⟨"/missing.js"⟩, ⟨"/a.js"⟩].map partialTree.canonical =
      [⟨"/missing.js"⟩, ⟨"/a.js"⟩] := by
    decide +kernel
  have fates := (files demand script met).2 _ named
  rw [canonical] at fates
  exact ⟨_, compiled, by decide +kernel, demand, script, met, named, by decide +kernel, fates⟩

end Job

end PageScript
