import PageScript.Proofs.Compile.Inlining
import PageScript.Proofs.Tree

/-!
Without force, files nest only as deep as there are paths that can be read, and modules as there are
modules (`expand_ends`).
-/

namespace PageScript

open Text Directive ClassSugar List Bool

variable {before after : Progress} {code : Text} {context : Context}
  {use : Progress → String → Option (Text × Progress)}

namespace Directive

/-- No `require` directive of a script is forced. -/
def Unforced (code : Text) : Prop :=
  ∀ directive ∈ occurrences require code,
    ((directive.flags.map InclusionFlags.parse).getD {}).force = false

instance (code : Text) : Decidable (Unforced code) :=
  inferInstanceAs (Decidable (∀ directive ∈ occurrences require code, _ = false))

end Directive

namespace Progress

def isFresh (progress : Progress) (components : List Component) : Bool :=
  ! progress.compiledFiles.any (·.components == components)

private theorem isFresh_components (progress : Progress) (file : Path) :
    progress.isFresh file.components = ! progress.isCompiled file := rfl

theorem Keeps.isFresh {components : List Component} (keeps : Keeps before after)
    (fresh : after.isFresh components = true) : before.isFresh components = true := by
  unfold Progress.isFresh at fresh ⊢
  rw [not_eq_true', any_eq_false] at fresh ⊢
  intro file member same
  have compiled : after.isCompiled file = true :=
    keeps file (any_eq_true.mpr ⟨file, member, beq_self_eq_true _⟩)
  obtain ⟨other, within, sameOther⟩ := any_eq_true.mp compiled
  refine fresh other within ?_
  rw [beq_iff_eq] at same ⊢
  rw [← same]
  exact beq_iff_eq.mp sameOther

end Progress

namespace Context

open Progress (Keeps)

/-- Neither the job nor a directive in a file forces files in. -/
structure Unforced (context : Context) : Prop where
  flags : context.settings.flags.force = false
  files : ∀ file code, context.fileCode? file = some code → Directive.Unforced code

def remaining (context : Context) (progress : Progress) : Nat :=
  context.tree.spellings.countP progress.isFresh

private theorem remaining_le (context : Context) (keeps : Keeps before after) :
    context.remaining after ≤ context.remaining before :=
  countP_mono_left fun _ _ => keeps.isFresh

private theorem remaining_lt (context : Context) {file : Path} (keeps : Keeps before after)
    (readable : context.fileCode? file = some code) (fresh : before.isCompiled file = false)
    (marked : after.isCompiled file = true) : context.remaining after < context.remaining before := by
  obtain ⟨source, read, _⟩ := fileCode?_eq_some.mp readable
  refine countP_lt (fun _ => keeps.isFresh) (Tree.components_mem_spellings read) ?_ ?_
  · rw [Progress.isFresh_components, marked, Bool.not_true]
  · rw [Progress.isFresh_components, fresh, Bool.not_false]

/-- Expands every script without forced directives, as long as few paths remain. -/
def Ends (context : Context) (expand : Expander) (limit : Nat) : Prop :=
  ∀ base progress code, Directive.Unforced code → context.remaining progress < limit →
    ∃ text after, expand base progress code = some (text, after) ∧ Keeps progress after

private theorem expandAll_ends {expand : Expander} {limit : Nat} (ends : context.Ends expand limit)
    {inclusions : List Inclusion} {progress : Progress}
    (each : ∀ inclusion ∈ inclusions, Directive.Unforced inclusion.code)
    (room : ∀ inclusion ∈ inclusions, context.remaining progress < limit) :
    ∃ parts after, expandAll expand progress inclusions = some (parts, after) ∧
      Keeps progress after := by
  induction inclusions generalizing progress with
  | nil => exact ⟨[], progress, rfl, .refl progress⟩
  | cons inclusion rest ih =>
    obtain ⟨gentle, others⟩ := forall_mem_cons.mp each
    obtain ⟨few, _⟩ := forall_mem_cons.mp room
    obtain ⟨text, next, first, kept⟩ :=
      ends (inclusion.path.parent?.getD ⟨""⟩) progress inclusion.code gentle few
    have fewer := Nat.lt_of_le_of_lt (context.remaining_le kept) few
    obtain ⟨parts, after, later, keptLater⟩ := ih others fun _ _ => fewer
    refine ⟨text :: parts, after, ?_, kept.trans keptLater⟩
    rw [expandAll, first]
    change (expandAll expand next rest).bind _ = _
    rw [later]
    rfl

private theorem require_ends (unforced : context.Unforced) {expand : Expander} {limit : Nat}
    (ends : context.Ends expand limit) (flags : InclusionFlags) (base : Path) (progress : Progress)
    (target : Text) (room : context.remaining progress < limit ∨
      flags.force = false ∧ context.remaining progress ≤ limit) :
    ∃ written after, context.require expand flags base progress target = some (written, after) ∧
      Keeps progress after := by
  unfold require
  split
  · exact ⟨none, progress, rfl, .refl progress⟩
  rename_i files _
  generalize pending_eq : context.pendingFiles flags progress files = pending
  dsimp only
  split
  · exact ⟨none, _, rfl, progress.foldl_markFile_keeps pending⟩
  have quiet := context.gather_quiet progress pending
  have keeps := (progress.foldl_markFile_keeps pending).trans quiet.keeps
  have gentle : ∀ inclusion ∈ (context.gather progress pending).1,
      Directive.Unforced inclusion.code := fun inclusion member =>
    unforced.files inclusion.path inclusion.code (context.gather_mem _ _ member).2
  have fewer : ∀ inclusion ∈ (context.gather progress pending).1,
      context.remaining (context.gather progress pending).2 < limit := by
    intro inclusion member
    obtain ⟨path, readable⟩ := context.gather_mem _ _ member
    rcases room with few | ⟨free, few⟩
    · exact Nat.lt_of_le_of_lt (context.remaining_le keeps) few
    · have marked : (context.gather progress pending).2.isCompiled inclusion.path = true := by
        rw [quiet.isCompiled]
        exact progress.isCompiled_foldl_markFile path
      have fresh : progress.isCompiled inclusion.path = false := by
        rw [← pending_eq] at path
        exact isCompiled_of_mem_pendingFiles free path
      exact Nat.lt_of_lt_of_le (context.remaining_lt keeps readable fresh marked) few
  obtain ⟨parts, after, expanded, kept⟩ := expandAll_ends ends gentle fewer
  refine ⟨some (assembleParts flags parts), after, ?_, keeps.trans kept⟩
  rw [expanded]
  rfl

private theorem expandRequires_step (unforced : context.Unforced) {fuel : Nat}
    (ends : context.Ends (context.expandRequires fuel) fuel) (base : Path) (progress : Progress)
    (code : Text) (room : context.remaining progress < fuel ∨
      Directive.Unforced code ∧ context.remaining progress ≤ fuel) :
    ∃ text after, context.expandRequires (fuel + 1) base progress code = some (text, after) ∧
      Keeps progress after := by
  unfold expandRequires
  apply weave?_exists _ Keeps.refl Keeps.trans
  intro lexeme directive member state reached
  have fewer := context.remaining_le reached
  have left : context.remaining state < fuel ∨
      (context.effectiveFlags directive).force = false ∧ context.remaining state ≤ fuel := by
    rcases room with few | ⟨gentle, few⟩
    · exact .inl (Nat.lt_of_le_of_lt fewer few)
    · have own := gentle directive (mem_filterMap.mpr ⟨_, member, rfl⟩)
      refine .inr ⟨?_, Nat.le_trans fewer few⟩
      unfold effectiveFlags InclusionFlags.union
      rw [own, unforced.flags, Bool.or_false]
  obtain ⟨written, after, done, kept⟩ := require_ends unforced ends
    (context.effectiveFlags directive) base state (trim directive.target) left
  unfold effectiveFlags at done
  refine ⟨written.getD lexeme, after, ?_, kept⟩
  dsimp only
  rw [done]
  rfl

private theorem expandRequires_ends (unforced : context.Unforced) (fuel : Nat) :
    context.Ends (context.expandRequires fuel) fuel := by
  induction fuel with
  | zero => exact fun _ _ _ _ few => absurd few (Nat.not_lt_zero _)
  | succ fuel ih =>
    intro base progress code gentle few
    exact expandRequires_step unforced ih base progress code
      (.inr ⟨gentle, Nat.le_of_lt_succ few⟩)

theorem requireFuel_ends (unforced : context.Unforced) (base : Path) (progress : Progress) (code : Text) :
    ∃ text after, context.expandRequires context.requireFuel base progress code =
      some (text, after) := by
  have few : context.remaining progress < Nat.pow (context.tree.entries.length + 4)
      (Tree.maxPath + 2) + 1 :=
    Nat.lt_succ_of_le (Nat.le_trans countP_le_length context.tree.length_spellings_le)
  obtain ⟨text, after, expanded, _⟩ := expandRequires_step unforced
    (expandRequires_ends unforced _) base progress code (.inl few)
  exact ⟨text, after, expanded⟩

def outside (context : Context) (building : List String) : Nat :=
  context.compiler.modules.modules.keys.countP (! building.contains ·)

private theorem outside_lt {building : List String} {name : String} {module_ : Module}
    (known : context.compiler.modules.get? name = some module_) (new : building.contains name = false) :
    context.outside (name :: building) < context.outside building := by
  have key : name ∈ context.compiler.modules.modules.keys :=
    mem_map.mpr ⟨(name, module_), mem_of_lookup known, rfl⟩
  refine countP_lt ?_ key ?_ ?_
  · intro other free
    simp only [contains_cons, Bool.not_or, and_eq_true] at free
    exact free.2
  · simp
  · rw [new, Bool.not_false]

theorem useAll_ends (ends : ∀ progress name, ∃ text after, use progress name = some (text, after))
    (progress : Progress) (names : List String) :
    ∃ text after, useAll use progress names = some (text, after) := by
  induction names generalizing progress with
  | nil => exact ⟨[], progress, rfl⟩
  | cons name rest ih =>
    obtain ⟨text, next, used⟩ := ends progress name
    obtain ⟨others, after, later⟩ := ih next
    refine ⟨text ++ others, after, ?_⟩
    rw [useAll, used]
    change (useAll use next rest).bind _ = _
    rw [later]
    rfl

private theorem moduleScript_ends (unforced : context.Unforced) (name : String) (file : Path)
    (locales : Option String) (progress : Progress) (source : Text) :
    ∃ script after, context.moduleScript name file locales progress source =
      some (script, after) := by
  unfold moduleScript
  split
  · exact ⟨none, _, rfl⟩
  · rename_i code next _
    obtain ⟨text, after, expanded⟩ := requireFuel_ends unforced (file.parent?.getD ⟨""⟩)
      (context.addLocales name (file.parent?.getD ⟨""⟩) locales (next.markFile file) code).2
      (context.addLocales name (file.parent?.getD ⟨""⟩) locales (next.markFile file) code).1
    refine ⟨some text, after, ?_⟩
    dsimp only
    rw [expanded]
    rfl

private theorem moduleCode_ends (unforced : context.Unforced)
    (ends : ∀ progress name, ∃ text after, use progress name = some (text, after)) (name : String)
    (file : Path) (locales : Option String) (progress : Progress) (source : Text) :
    ∃ code after, context.moduleCode use name file locales progress source = some (code, after) := by
  obtain ⟨script, next, scripted⟩ := moduleScript_ends unforced name file locales progress source
  unfold moduleCode
  rw [scripted]
  cases script with
  | none => exact ⟨none, next, rfl⟩
  | some code =>
    obtain ⟨dependencies, after, used⟩ :=
      useAll_ends ends next ((usedModules code).map String.ofList)
    refine ⟨some (dependencies ++ dropUses code), after, ?_⟩
    change (useAll use next _).bind _ = _
    rw [used]
    rfl

private theorem useModule_ends (unforced : context.Unforced) (fuel : Nat) (building : List String)
    (few : context.outside building < fuel) (progress : Progress) (name : String) :
    ∃ text after, context.useModule fuel building progress name = some (text, after) := by
  induction fuel generalizing building progress name with
  | zero => exact absurd few (Nat.not_lt_zero _)
  | succ fuel ih =>
    unfold useModule useOne
    split
    · exact ⟨[], _, rfl⟩
    split
    · exact ⟨[], _, rfl⟩
    rename_i new
    split
    · exact ⟨[], _, rfl⟩
    split
    · exact ⟨[], _, rfl⟩
    rename_i module_ known
    dsimp only
    split
    · exact ⟨[], _, rfl⟩
    rename_i source _
    have fewer := outside_lt known (not_eq_true _ ▸ new)
    have inner := ih (name :: building) (Nat.lt_of_lt_of_le fewer (Nat.le_of_lt_succ few))
    obtain ⟨code, after, built⟩ := moduleCode_ends unforced inner name
      (context.moduleFile module_) module_.locale? progress source
    rw [built]
    cases code with
    | none => exact ⟨[], after, rfl⟩
    | some code => exact ⟨code ++ ['\n'], after.markModule name, rfl⟩

private theorem expandUses_ends (unforced : context.Unforced) (progress : Progress) (code : Text) :
    ∃ text after, context.expandUses progress code = some (text, after) := by
  have few : context.outside [] < context.useFuel := by
    have all : context.outside [] ≤ context.compiler.modules.modules.keys.length :=
      countP_le_length
    unfold useFuel
    rw [Keyed.keys, length_map] at all
    omega
  have steps (names : List Text) (state : Progress) :
      ∃ written next, useAll (context.useModule context.useFuel []) state
        (names.map String.ofList) = some (written, next) ∧ True := by
    obtain ⟨written, next, used⟩ := useAll_ends (useModule_ends unforced _ [] few) state
      (names.map String.ofList)
    exact ⟨written, next, used, trivial⟩
  obtain ⟨text, after, expanded, _⟩ := weave?_exists _ (fun _ => trivial)
    (fun _ _ => trivial) fun _ names _ state _ => steps names state
  exact ⟨text, after, expanded⟩

/-- Where nothing is forced, every script can be expanded: however files and modules refer to each
other, the fuel does not run out. -/
theorem expand_ends {context : Context} (unforced : context.Unforced) (base : Path)
    (progress : Progress) (code : Text) :
    ∃ text after, context.expand base progress code = some (text, after) := by
  obtain ⟨required, next, expanded⟩ := requireFuel_ends unforced base progress code
  obtain ⟨text, after, used⟩ := expandUses_ends unforced next required
  refine ⟨text, after, ?_⟩
  unfold expand
  rw [expanded]
  exact used

end Context

def Entry.text? : Entry → Option Text
  | .file text => some text
  | .binary | .folder | .link _ => none

namespace Context

def isPlain (context : Context) (code : Text) : Bool :=
  dropCommentedOut code == code && (occurrences templateBlock code).isEmpty &&
  dropModuleDirectives (Script.stripComments code) == code &&
  filterBlocks "context" context.settings.side.label.toList code == code &&
  (occurrences dataReference code).isEmpty && (marks code).isEmpty &&
  looseConstants code == code && (occurrences asset code).isEmpty &&
  filterBlocks "mode" context.settings.mode.toList code == code

theorem pass_of_isPlain (plain : context.isPlain code = true) (file : Option Path) (progress : Progress) :
    (context.pass file progress code).1 = .ok code := by
  simp only [isPlain, and_eq_true, beq_iff_eq] at plain
  obtain ⟨⟨⟨⟨⟨⟨⟨⟨commented, templates⟩, comments⟩, side⟩, data⟩, marks⟩, constants⟩, assets⟩, mode⟩ :=
    plain
  have prepared (label : String) (base : Path) :
      context.prepare label base file progress code = (code, progress) := by
    unfold prepare expandTemplates injectData
    rw [commented, weave_cut_of_none _ templates]
    dsimp only
    rw [comments, side, weave_cut_of_none _ data]
  have desugared (label : String) : desugar label code = .ok { code, malformed := [] } := by
    unfold desugar
    rw [List.isEmpty_iff.mp marks, desugarFrom, drop_zero, constants]
  unfold pass
  dsimp only
  rw [prepared]
  dsimp only
  rw [desugared]
  unfold conclude collectAssets
  dsimp only
  rw [weave_cut_of_none _ assets]
  dsimp only
  rw [mode]

def texts (context : Context) : List Text :=
  context.tree.entries.filterMap (·.2.text?)

/-- Every file of the tree has plain text without forced directives. -/
def isGentle (context : Context) : Bool :=
  context.texts.all fun text => context.isPlain text && decide (Directive.Unforced text)

theorem mem_texts_of_fileCode? (gentle : context.isGentle = true) {file : Path}
    (known : context.fileCode? file = some code) : code ∈ context.texts ∧ Directive.Unforced code := by
  obtain ⟨source, read, outcome⟩ := fileCode?_eq_some.mp known
  obtain ⟨place, _, found⟩ := Tree.find?_eq_ok.mp (Tree.read_eq_ok.mp read)
  have member : source ∈ context.texts := by
    unfold Tree.entry? at found
    split at found
    · cases found
    · exact mem_filterMap.mpr ⟨_, mem_of_lookup found, rfl⟩
  obtain ⟨plain, unforced⟩ := and_eq_true_iff.mp (all_eq_true.mp gentle _ member)
  rw [pass_of_isPlain plain] at outcome
  cases outcome
  exact ⟨member, of_decide_eq_true unforced⟩

def knot : Context where
  tree := {
    entries := [(["a.js"], .file "@lx:require m;@lx:use M;a".toList),
      (["m.js"], .file "@lx:require a;@lx:use M;m".toList)]
    home := [] }
  compiler := {
    modules := { root := ⟨"/"⟩, modules := [("M", { name := "M", path := "m.js" })] }
    widgets := .empty }
  settings := { side := .client }

private theorem knot_unforced : knot.Unforced := by
  refine ⟨rfl, fun file code known => ?_⟩
  exact (mem_texts_of_fileCode? (by decide +kernel) known).2

theorem expand_ends_knot :
    knot.Unforced ∧ ∃ text after,
      knot.expand ⟨"/"⟩ {} "@lx:require -F \x7ba, a\x7d;@lx:use M;".toList = some (text, after) :=
  ⟨knot_unforced, expand_ends knot_unforced ⟨"/"⟩ {} _⟩

end Context

end PageScript
