import PageScript.Proofs.Class.FilledSugar
import PageScript.Proofs.Compile.Positions
import PageScript.Proofs.Compile.Transparency
import PageScript.Proofs.Directive.Filled

/-! A script with placeholders from its preparation to the end (`complete_fill`). -/

namespace PageScript

open Text Directive Filling PageScript.Locale ClassSugar Option List

variable {context : Context} {file : Option Path} {prepared code : Text} {progress after : Progress}
  {desugared : Desugared}

/-- Placeholders stand for code on one line that no step of a compilation finds anything in. -/
structure Filling.Opaque (filling : Filling) : Prop where
  unmarked : ∀ c, isHole c = true → Unmarked (filling.text c)
  headless : ∀ c, isHole c = true → ClassHeader.Headless (filling.text c).dropLast
  solid : ∀ c, isHole c = true → Script.Solid (filling.text c)
  oneLine : filling.OneLine

variable {filling : Filling}

namespace Filling.Opaque

variable (shut : filling.Opaque)
include shut

private theorem not_infix {marker : Text} (directive : "@lx:".toList <+: marker) (c : Char)
    (hole : isHole c = true) : ¬ marker <:+: filling.text c :=
  fun within => (shut.unmarked c hole).directive (directive.isInfix.trans within)

private theorem passes : Passes filling where
  constant := shut.not_infix ⟨"const".toList, rfl⟩
  space := shut.not_infix ⟨"namespace".toList, rfl⟩
  headless := shut.headless
  solid := shut.solid

end Filling.Opaque

/-! ### The pass -/

namespace Context

/-- The pass over a script once it is prepared. -/
def passPrepared (context : Context) (file : Option Path) (progress : Progress) (prepared : Text) :
    Except Violation Text × Progress :=
  match desugar (context.labelOf file) prepared with
  | .error violation => (.error violation, progress)
  | .ok desugared =>
      let (code, progress) :=
        context.conclude (context.labelOf file) (context.baseOf file) file progress desugared
      (.ok code, progress)

theorem passPrepared_of_ok
    (done : desugar (context.labelOf file) prepared = .ok desugared) (progress : Progress) :
    context.passPrepared file progress prepared =
      (.ok (context.conclude (context.labelOf file) (context.baseOf file) file progress desugared).1,
        (context.conclude (context.labelOf file) (context.baseOf file) file progress desugared).2) := by
  rw [passPrepared, done]

theorem pass_eq (context : Context) (file : Option Path) (progress : Progress) (code : Text) :
    context.pass file progress code =
      context.passPrepared file
        (context.prepare (context.labelOf file) (context.baseOf file) file progress code).2
        (context.prepare (context.labelOf file) (context.baseOf file) file progress code).1 := by
  obtain ⟨prepared, middle, preparing, ⟨violation, failed, passed⟩ | ⟨desugared, done, passed⟩⟩ :=
    context.pass_cases file progress code
  · rw [preparing, passed, passPrepared, failed]
  · rw [preparing, passed, passPrepared_of_ok done]

/-- Placeholders keep clear of class headers and literals in classes, and of the directives that the pass
takes out. -/
structure ClearOfPass (context : Context) (file : Option Path) (prepared : Text) : Prop where
  sheltered : Sheltered prepared
  scripts : ∀ {desugared}, desugar (context.labelOf file) prepared = .ok desugared →
    Unreached "@lx:js" desugared.code
  styles : ∀ {desugared}, desugar (context.labelOf file) prepared = .ok desugared →
    Unreached "@lx:css" desugared.code

private theorem collectAssets_fill (shut : filling.Opaque) (scripts : Unreached "@lx:js" code)
    (styles : Unreached "@lx:css" code) (base : Path) (progress : Progress) :
    collectAssets base progress (filling.fill code) =
      (filling.fill (collectAssets base progress code).1, (collectAssets base progress code).2) := by
  have reads : filling.Reads asset filling.chars :=
    .of_begins filling asset_begins (by decide) (by decide)
      (shut.not_infix (prefix_refl _))
  unfold collectAssets
  rw [cut_fill asset_terminated.consumes reads
    (asset_follows scripts styles)]
  exact weave_fill (fun _ _ _ _ => rfl) progress

private theorem filterModes_fill (shut : filling.Opaque) (active code : Text) :
    filterBlocks "mode" active (filling.fill code) =
      filling.fill (filterBlocks "mode" active code) :=
  filterBlocks_fill (by decide) (shut.not_infix ⟨"<mode".toList, rfl⟩)
    (shut.not_infix ⟨"mode>".toList, rfl⟩) active code

theorem passPrepared_fill (shut : filling.Opaque) (clear : context.ClearOfPass file prepared)
    (calm : filling.Calm "@lx:const" prepared) (progress : Progress) :
    context.passPrepared file progress (filling.fill prepared) =
      ((context.passPrepared file progress prepared).1.map filling.fill,
        (context.passPrepared file progress prepared).2) := by
  have mirrors := desugar_fill shut.passes calm (context.labelOf file) clear.sheltered
  unfold passPrepared
  cases own : desugar (context.labelOf file) prepared with
  | error violation =>
    cases filled : desugar (context.labelOf file) (filling.fill prepared) with
    | ok desugared =>
      rw [own, filled] at mirrors
      cases mirrors
    | error other =>
      rw [own, filled] at mirrors
      rw [mirrors.2 shut.oneLine]
      rfl
  | ok desugared =>
    cases filled : desugar (context.labelOf file) (filling.fill prepared) with
    | error violation =>
      rw [own, filled] at mirrors
      cases mirrors
    | ok other =>
      rw [own, filled] at mirrors
      cases mirrors
      have collected := collectAssets_fill shut (clear.scripts own) (clear.styles own)
        (context.baseOf file)
        (reportHeaders (context.labelOf file) file progress desugared.malformed)
      unfold conclude
      dsimp only [Desugared.fill]
      rw [collected]
      dsimp only
      rw [filterModes_fill shut]
      rfl

/-! ### Inclusions -/

/-- Placeholders keep clear of the directives that include other code, and neither that code nor the
texts of locales bring in new ones. -/
structure ClearOfInclusions (context : Context) (progress : Progress) (code : Text) : Prop where
  requires : Unreached "@lx:require" code
  uses : ∀ {text after},
    context.expandRequires context.requireFuel context.settings.folder progress code =
      some (text, after) → Unreached "@lx:use" text
  required : ∀ {text after},
    context.expandRequires context.requireFuel context.settings.folder progress code =
      some (text, after) → Fresh code text
  used : ∀ {text after final last},
    context.expandRequires context.requireFuel context.settings.folder progress code =
      some (text, after) → context.expandUses after text = some (final, last) → Fresh text final
  finished : ∀ {text after},
    context.expand context.settings.folder progress code = some (text, after) →
      Fresh text (context.settings.finish after text)

theorem require_apart (requires : Unreached "@lx:require" code) : Apart Directive.require code :=
  require_terminated.apart (forall_mem_singleton.mpr requires)

private theorem use_apart (uses : Unreached "@lx:use" code) : Apart use code :=
  use_terminated.apart (forall_mem_singleton.mpr uses)

theorem expandRequires_fill (shut : filling.Opaque) (requires : Unreached "@lx:require" code)
    {fuel : Nat} {base : Path}
    (fresh : ∀ {text after}, context.expandRequires fuel base progress code = some (text, after) →
      Fresh code text) :
    context.expandRequires fuel base progress (filling.fill code) =
      (context.expandRequires fuel base progress code).map fun found =>
        (filling.fill found.1, found.2) := by
  cases fuel with
  | zero => rfl
  | succ fuel =>
    have reads : filling.Reads Directive.require filling.chars :=
      .of_begins filling require_begins (by decide) (by decide)
        (shut.not_infix ⟨"require".toList, rfl⟩)
    exact weave?_cut_fill require_terminated.consumes reads
      ((require_follows requires).answers reads.unseen) (require_apart requires) fresh

private theorem expandUses_fill (shut : filling.Opaque) (uses : Unreached "@lx:use" code)
    (fresh : ∀ {text after}, context.expandUses progress code = some (text, after) →
      Fresh code text) :
    context.expandUses progress (filling.fill code) =
      (context.expandUses progress code).map fun found => (filling.fill found.1, found.2) := by
  have reads : filling.Reads use filling.chars :=
    .of_begins filling use_begins (by decide) (by decide)
      (shut.not_infix ⟨"use".toList, rfl⟩)
  exact weave?_cut_fill use_terminated.consumes reads
    ((use_follows uses).answers reads.unseen) (use_apart uses) fresh

theorem expand_eq (context : Context) (base : Path) (progress : Progress) (code : Text) :
    context.expand base progress code =
      (context.expandRequires context.requireFuel base progress code).bind fun found =>
        context.expandUses found.2 found.1 :=
  rfl

theorem expand_fill (shut : filling.Opaque) (clear : context.ClearOfInclusions progress code) :
    context.expand context.settings.folder progress (filling.fill code) =
      (context.expand context.settings.folder progress code).map fun found =>
        (filling.fill found.1, found.2) := by
  rw [expand_eq, expand_eq, expandRequires_fill shut clear.requires clear.required]
  cases required : context.expandRequires context.requireFuel context.settings.folder progress code with
  | none => rw [map_none, bind_none, map_none]
  | some found =>
    rw [map_some, bind_some, bind_some]
    exact expandUses_fill shut (clear.uses required) (clear.used required)

private theorem holes_expand {text : Text} (clear : context.ClearOfInclusions progress code)
    (expanded : context.expand context.settings.folder progress code = some (text, after)) :
    holes text = holes code := by
  rw [expand_eq, bind_eq_some_iff] at expanded
  obtain ⟨⟨middle, next⟩, required, used⟩ := expanded
  have early : holes middle = holes code := by
    have fresh := clear.required required
    cases fuel : context.requireFuel with
    | zero =>
      rw [fuel] at required
      cases required
    | succ fuel' =>
      rw [fuel] at required
      exact holes_weave?_cut (require_apart clear.requires) required fresh
  exact (holes_weave?_cut (use_apart (clear.uses required)) used (clear.used required used)).trans
    early

end Context

/-! ### Locales and the plugin -/

theorem Settings.holes_finish {settings : Settings} (fresh : Fresh code (settings.finish progress code)) :
    holes (substitute settings.language progress.moduleTable settings.pluginTable code) =
        holes code ∧
      holes (settings.finish progress code) = holes code := by
  have first : (holes code).Sublist (holes
      (substitute settings.language progress.moduleTable settings.pluginTable code)) :=
    holes_sublist_replace (reference_findsFree.apart _) _
  have second : (holes
      (substitute settings.language progress.moduleTable settings.pluginTable code)).Sublist
        (holes (settings.finish progress code)) :=
    holes_sublist_replace (selfReference_findsFree.apart _) _
  have whole := (first.trans second).eq_of_length_le fresh.length_le
  refine ⟨(first.eq_of_length_le ?_).symm, whole.symm⟩
  rw [whole]
  exact second.length_le

theorem Settings.finish_fill (shut : filling.Opaque) {settings : Settings}
    (fresh : Fresh code (settings.finish progress code)) :
    settings.finish progress (filling.fill code) = filling.fill (settings.finish progress code) := by
  obtain ⟨early, late⟩ := settings.holes_finish fresh
  have localised : substitute settings.language progress.moduleTable settings.pluginTable
      (filling.fill code) = filling.fill
        (substitute settings.language progress.moduleTable settings.pluginTable code) := by
    have reads : filling.Reads reference filling.chars :=
      .of_begins filling reference_begins (by decide) (by decide) fun c hole within =>
        (shut.unmarked c hole).reference (.trans ⟨[], "i18n".toList, rfl⟩ within)
    exact replace_fill_free reference_findsFree.consumes reads
      ((reference_follows code).answers reads.unseen) (reference_findsFree.apart code)
      (.of_holes early)
  have reads : filling.Reads selfReference filling.chars :=
    .of_begins filling selfReference_begins (by decide) (by decide) fun c hole =>
      (shut.unmarked c hole).self
  unfold Settings.finish at late ⊢
  rw [localised]
  exact replace_fill_free selfReference_findsFree.consumes reads
    ((selfReference_follows _).answers reads.unseen) (selfReference_findsFree.apart _)
    (.of_holes (late.trans early.symm))

/-! ### To the end -/

def Settings.enclosed (settings : Settings) (code : Text) : Text :=
  if settings.wrap then isolated code else code

private theorem isolated_free :
    Free "(function()\x7b\n".toList ∧ Free "\n\x7d)();".toList := by
  decide

theorem Settings.enclosed_fill (settings : Settings) (code : Text) :
    settings.enclosed (filling.fill code) = filling.fill (settings.enclosed code) := by
  unfold Settings.enclosed isolated
  split
  · rw [filling.fill_append, filling.fill_append, filling.fill_eq_self isolated_free.1,
      filling.fill_eq_self isolated_free.2]
  · rfl

theorem Settings.holes_enclosed (settings : Settings) (code : Text) :
    holes (settings.enclosed code) = holes code := by
  unfold Settings.enclosed isolated
  split
  · rw [holes_append, holes_append, isolated_free.1.holes, isolated_free.2.holes,
      nil_append, append_nil]
  · rfl

namespace Context

def included (context : Context) (progress : Progress) (code : Text) :
    Except Failure Text × Progress :=
  match context.expand context.settings.folder progress code with
  | none => (.error .endless, progress)
  | some (code, progress) => (.ok (context.settings.finish progress code), progress)

theorem included_of_none (endless : context.expand context.settings.folder progress code = none) :
    context.included progress code = (.error .endless, progress) := by
  rw [included, endless]

theorem included_of_some {text : Text}
    (expanded : context.expand context.settings.folder progress code = some (text, after)) :
    context.included progress code = (.ok (context.settings.finish after text), after) := by
  rw [included, expanded]

def complete (context : Context) (file : Option Path) (progress : Progress) (prepared : Text) :
    Except Failure Text × Progress :=
  match context.passPrepared file progress prepared with
  | (.error violation, progress) => (.error (.structural violation), progress)
  | (.ok code, progress) => context.included progress (context.settings.enclosed code)

theorem complete_of_error {violation : Violation}
    (failed : context.passPrepared file progress prepared = (.error violation, after)) :
    context.complete file progress prepared = (.error (.structural violation), after) := by
  rw [complete, failed]

theorem complete_of_ok (passed : context.passPrepared file progress prepared = (.ok code, after)) :
    context.complete file progress prepared =
      context.included after (context.settings.enclosed code) := by
  rw [complete, passed]

structure Clear (context : Context) (file : Option Path) (progress : Progress) (prepared : Text) :
    Prop where
  pass : context.ClearOfPass file prepared
  inclusions : ∀ {code after}, context.passPrepared file progress prepared = (.ok code, after) →
    context.ClearOfInclusions after (context.settings.enclosed code)

theorem included_fill (shut : filling.Opaque) (clear : context.ClearOfInclusions progress code) :
    context.included progress (filling.fill code) =
      ((context.included progress code).1.map filling.fill, (context.included progress code).2) := by
  have filled := expand_fill shut clear
  cases expanded : context.expand context.settings.folder progress code with
  | none =>
    rw [expanded] at filled
    rw [included_of_none filled, included_of_none expanded]
    rfl
  | some found =>
    obtain ⟨text, after⟩ := found
    rw [expanded, map_some] at filled
    rw [included_of_some filled, included_of_some expanded,
      Settings.finish_fill shut (clear.finished expanded)]
    rfl

theorem complete_fill (shut : filling.Opaque) (clear : context.Clear file progress prepared)
    (calm : filling.Calm "@lx:const" prepared) :
    context.complete file progress (filling.fill prepared) =
      ((context.complete file progress prepared).1.map filling.fill,
        (context.complete file progress prepared).2) := by
  have filled := passPrepared_fill shut clear.pass calm progress
  cases passed : context.passPrepared file progress prepared with
  | mk answer after =>
    rw [passed] at filled
    cases answer with
    | error violation =>
      rw [complete_of_error filled, complete_of_error passed]
      rfl
    | ok code =>
      rw [complete_of_ok filled, complete_of_ok passed, context.settings.enclosed_fill,
        included_fill shut (clear.inclusions passed)]

/-! ### Placeholders that stay -/

theorem holes_collectAssets (scripts : Unreached "@lx:js" code) (styles : Unreached "@lx:css" code)
    (base : Path) (progress : Progress) : holes (collectAssets base progress code).1 = holes code := by
  have written : (collectAssets base progress code).1 =
      writePieces (fun _ _ => []) (cut asset code) := by
    refine weave_fst_eq ?_ _ _
    intro progress lexeme found
    rfl
  rw [written, holes_writePieces, flatMap_source_cut]
  intro lexeme found member
  have apart : Apart asset code := asset_terminated.apart
    (forall_mem_cons.mpr ⟨scripts, forall_mem_singleton.mpr styles⟩)
  exact (apart lexeme found member).holes.symm

def bared (context : Context) (file : Option Path) (progress : Progress)
    (desugared : Desugared) : Text :=
  (collectAssets (context.baseOf file)
    (reportHeaders (context.labelOf file) file progress desugared.malformed) desugared.code).1

/-- Up to the blocks for other modes, a script keeps all placeholders; what then becomes of it has those
that the blocks leave. -/
theorem holes_complete (clear : context.Clear file progress prepared)
    (done : desugar (context.labelOf file) prepared = .ok desugared) :
    holes (context.bared file progress desugared) = holes prepared ∧
      ∀ code, (context.complete file progress prepared).1 = .ok code →
        holes code = holes (filterBlocks "mode" context.settings.mode.toList
          (context.bared file progress desugared)) := by
  constructor
  · exact (holes_collectAssets (clear.pass.scripts done) (clear.pass.styles done) _ _).trans
      (desugar_holes clear.pass.sheltered.headed done)
  · intro code completed
    have passed := passPrepared_of_ok done progress
    have free := clear.inclusions passed
    rw [complete_of_ok passed] at completed
    cases expanded : context.expand context.settings.folder _ _ with
    | none =>
      rw [included_of_none expanded] at completed
      cases completed
    | some found =>
      obtain ⟨text, after⟩ := found
      rw [included_of_some expanded] at completed
      cases completed
      rw [(Settings.holes_finish (free.finished expanded)).2, holes_expand free expanded,
        Settings.holes_enclosed]
      rfl

theorem desugar_of_complete (completed : (context.complete file progress prepared).1 = .ok code) :
    ∃ desugared, desugar (context.labelOf file) prepared = .ok desugared := by
  cases done : desugar (context.labelOf file) prepared with
  | ok desugared => exact ⟨desugared, rfl⟩
  | error violation =>
    have failed : context.passPrepared file progress prepared = (.error violation, progress) := by
      rw [passPrepared, done]
    rw [complete_of_error failed] at completed
    cases completed

end Context

end PageScript
