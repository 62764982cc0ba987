import PageScript.Proofs.Compile.Inlining
import PageScript.Proofs.Compile.ModuleOrder
import PageScript.Proofs.Locale.Resolution

/-! Localised texts of modules in the result of a compilation (`Job.compile_moduleTexts`). -/

open List

namespace PageScript

open Text Directive Insertion PageScript.Locale Context Progress Option

variable {context : Context} {progress after : Progress} {code : Text} {record : List Insertion}
  {name : String} {table : LocaleTable} {built : Built}

namespace Context

private theorem recordedRequires_table {fuel : Nat} {base : Path} {text : Text}
    (done : context.recordedRequires fuel base progress code = some (text, after, record)) :
    after.moduleTable = progress.moduleTable := by
  apply context.recordedRequires_induct
    (fun before after _ => after.moduleTable = before.moduleTable) _ _ _ _ done
  · exact fun _ => rfl
  · exact fun first second => second.trans first
  · exact moduleTable_foldl_markFile
  · intro flags progress files parts inner after kept
    have gathered := context.gather_related SameTable.ignoresNotes progress
      (context.pendingFiles flags progress files)
    rw [kept, show _ = _ from gathered, moduleTable_foldl_markFile]

/-! ### The texts of a module -/

def localesOf? (context : Context) (name : String) : Option LocaleTable := do
  let module_ ← context.compiler.modules.get? name
  let file ← module_.locale?
  let folder := (context.moduleFile module_).parent?.getD ⟨""⟩
  (LocaleTable.load context.tree (folder.join ⟨file⟩)).toOption

def localeEntry (context : Context) (name : String) : List (String × LocaleTable) :=
  (context.localesOf? name).toList.map fun table => (name, table)

private theorem localesOf?_distinct (has : context.localesOf? name = some table) :
    (Keyed.keys table.languages).Nodup := by
  simp only [localesOf?, bind_eq_bind, bind_eq_some_iff] at has
  obtain ⟨_, _, _, _, loaded⟩ := has
  exact LocaleTable.load_distinct (toOption_eq_some.mp loaded)

theorem addLocales_eq {module_ : Module} (known : context.compiler.modules.get? name = some module_)
    (progress : Progress) (code : Text) : let folder := (context.moduleFile module_).parent?.getD ⟨""⟩
    (context.addLocales name folder module_.locale? progress code).2.moduleTable =
      progress.moduleTable.mergeAll (context.localeEntry name) ∧
    (∀ table, context.localesOf? name = some table →
      (context.addLocales name folder module_.locale? progress code).1 =
        qualifyReferences name.toList code) := by
  unfold localeEntry localesOf? addLocales
  simp only [known, bind_eq_bind, bind_some]
  cases module_.locale? with
  | none => exact ⟨rfl, fun _ has => by cases has⟩
  | some file =>
    simp only [bind_some]
    cases LocaleTable.load context.tree _ with
    | error failure => exact ⟨rfl, fun _ has => by cases has⟩
    | ok table => exact ⟨rfl, fun _ _ => rfl⟩

/-! ### The modules of a run -/

/-- How the own code of a built module came about: its file went through the pass, its locales were
taken up, and the files it requires were put in. -/
structure Assembled (context : Context) (built : Built) : Prop where
  builds : context.settings.buildModules = true
  labelled : Labelled (some built.name.toList)
  code : ∃ module_ own state after,
    context.compiler.modules.get? built.name = some module_ ∧
    built.file = context.moduleFile module_ ∧
    context.fileCode? built.file = some own ∧
    context.expandRequires context.requireFuel (built.file.parent?.getD ⟨""⟩) state
      (context.addLocales built.name (built.file.parent?.getD ⟨""⟩) module_.locale? {} own).1 =
        some (built.code, after)

/-- What a run does to the table of a job: the texts of the modules that it builds are merged, in some
order. -/
structure Localised (context : Context) (before after : Progress) (built : List Built) : Prop where
  assembled : ∀ module_ ∈ built, context.Assembled module_
  table : ∃ added : List (String × LocaleTable),
    added.Perm (built.flatMap fun module_ => context.localeEntry module_.name) ∧
    after.moduleTable = before.moduleTable.mergeAll added

theorem Localised.idle {before : Progress} (same : after.moduleTable = before.moduleTable) :
    context.Localised before after [] where
  assembled _ none := by cases none
  table := ⟨[], .refl _, same⟩

theorem Localised.append {first second third : Progress} {left right : List Built}
    (begun : context.Localised first second left) (ended : context.Localised second third right) :
    context.Localised first third (left ++ right) where
  assembled module_ member := by
    rcases mem_append.mp member with early | late
    · exact begun.assembled module_ early
    · exact ended.assembled module_ late
  table := by
    obtain ⟨early, earlyPerm, middle⟩ := begun.table
    obtain ⟨late, latePerm, final⟩ := ended.table
    refine ⟨early ++ late, ?_, ?_⟩
    · rw [flatMap_append]
      exact earlyPerm.append latePerm
    · rw [final, middle, LocaleTable.mergeAll, LocaleTable.mergeAll, LocaleTable.mergeAll,
        foldl_append]

theorem Localised.finish {before scripted last : Progress} {own : Built} {built : List Built}
    (assembled : context.Assembled own) (entered : scripted.moduleTable =
      before.moduleTable.mergeAll (context.localeEntry own.name))
    (inner : context.Localised scripted last built) (same : after.moduleTable = last.moduleTable) :
    context.Localised before after (built ++ [own]) where
  assembled module_ member := by
    rcases mem_append.mp member with used | itself
    · exact inner.assembled module_ used
    · rw [mem_singleton.mp itself]
      exact assembled
  table := by
    obtain ⟨added, perm, final⟩ := inner.table
    refine ⟨context.localeEntry own.name ++ added, ?_, ?_⟩
    · rw [flatMap_append, flatMap_singleton]
      exact (perm.append_left _).trans perm_append_comm
    · rw [same, final, entered, LocaleTable.mergeAll, LocaleTable.mergeAll, LocaleTable.mergeAll,
        foldl_append]

private theorem use_labelled {before text after : Text} {names : List Text}
    (seen : use before text = some (names, after)) :
    ∀ name ∈ names, Labelled (some name) := by
  simp only [use, bind_eq_bind, bind_eq_some_iff] at seen
  obtain ⟨_, _, _, _, ⟨body, rest⟩, _, seen⟩ := seen
  split at seen
  · rename_i valid
    cases seen
    rintro name member given ⟨⟩
    have each := all_eq_true.mp valid name member
    rw [Bool.and_eq_true, Bool.not_eq_true', isEmpty_eq_false_iff] at each
    exact ⟨each.1, all_eq_true.mp each.2⟩
  · cases seen

private theorem labelled_of_mem_uses (uses : name ∈ built.uses) : Labelled (some name.toList) := by
  obtain ⟨written, member, rfl⟩ := mem_map.mp uses
  obtain ⟨names, among, within⟩ := mem_flatten.mp member
  obtain ⟨_, _, _, seen⟩ := recognised_of_mem_occurrences among
  rw [String.toList_ofList]
  exact use_labelled seen written within

private theorem recordedAllUses_localised {use : Progress → String → Option (Recorded Text)}
    {names : List String} (single : ∀ name ∈ names, ∀ {progress after text record},
      use progress name = some (text, after, record) →
      context.Localised progress after (modules record)) {text : Text}
    (done : recordedAllUses use progress names = some (text, after, record)) :
    context.Localised progress after (modules record) := by
  induction names generalizing progress text record with
  | nil =>
    cases done
    exact .idle rfl
  | cons name rest ih =>
    obtain ⟨code, next, first, others, more, used, remaining, rfl, rfl⟩ :=
      recordedAllUses_cons done
    rw [modules_append]
    exact (single name mem_cons_self used).append
      (ih (fun other member => single other (mem_cons_of_mem name member)) remaining)

theorem recordedOne_localised {inner : List String → Progress → String → Option (Recorded Text)}
    {building : List String} {text : Text} (labelled : Labelled (some name.toList))
    (nested : ∀ {building progress other text after record},
      Labelled (some other.toList) →
      inner building progress other = some (text, after, record) →
      context.Localised progress after (modules record))
    (done : context.recordedOne inner building progress name = some (text, after, record)) :
    context.Localised progress after (modules record) := by
  rcases recordedOne_cases done with
    ⟨_, rfl, _, kept, _⟩ |
    ⟨module_, _, built, own, begun, marked, scripted, noted, dependencies, last, more, _, _, _, builds,
      known, builtAt, ⟨ownCode, same, rfl, rfl⟩, _, _, expanded, used, _, rfl, rfl⟩
  · exact .idle kept
  obtain ⟨noModules, _⟩ := recordedRequires_modules expanded
  have expands := congrArg withoutRecord expanded
  rw [context.withoutRecord_recordedRequires] at expands
  have named : built.name = name := by rw [builtAt]
  subst named
  have assembled : context.Assembled built :=
    ⟨builds, labelled, module_, own, _, _, known, by rw [builtAt], ownCode, expands⟩
  have entered : scripted.moduleTable =
      progress.moduleTable.mergeAll (context.localeEntry built.name) := by
    rw [builtAt] at expanded ⊢
    rw [recordedRequires_table expanded, (addLocales_eq known _ own).1, same]
  have inside := recordedAllUses_localised
    (fun other usesIt => nested (labelled_of_mem_uses usesIt)) used
  rw [modules_append, modules_append, noModules, nil_append, modules_built]
  exact .finish assembled entered inside (last.moduleTable_markModule built.name)

private theorem recordedUse_localised {fuel : Nat} {building : List String} {text : Text}
    (labelled : Labelled (some name.toList))
    (done : context.recordedUse fuel building progress name = some (text, after, record)) :
    context.Localised progress after (modules record) := by
  induction fuel generalizing building progress after name text record with
  | zero => cases done
  | succ fuel ih => exact recordedOne_localised labelled (fun named used => ih named used) done

private theorem recordedDirectives_localised {text : Text}
    (done : context.recordedDirectives progress (cut use code) =
      some (text, after, record)) : context.Localised progress after (modules record) := by
  have labelled : ∀ lexeme names, .found lexeme names ∈ cut use code →
      ∀ name ∈ names, Labelled (some name) := by
    intro lexeme names member
    obtain ⟨_, _, _, seen⟩ := recognised_of_mem_cutFrom member
    exact use_labelled seen
  generalize cut use code = pieces at done labelled
  unfold recordedDirectives at done
  induction pieces generalizing progress text record with
  | nil =>
    cases done
    exact .idle rfl
  | cons piece rest ih =>
    have later := fun lexeme names member =>
      labelled lexeme names (mem_cons_of_mem piece member)
    cases piece with
    | plain c =>
      simp only [weaveRecorded, map_eq_some_iff] at done
      obtain ⟨⟨others, last, noted⟩, reached, same⟩ := done
      cases same
      exact ih reached later
    | found lexeme names =>
      simp only [weaveRecorded, bind_eq_some_iff, map_eq_some_iff] at done
      obtain ⟨⟨written, next, first⟩, used, ⟨others, last, noted⟩, reached, same⟩ := done
      cases same
      rw [modules_append]
      refine (recordedAllUses_localised (fun name member => ?_) used).append (ih reached later)
      obtain ⟨given, among, rfl⟩ := mem_map.mp member
      have named := labelled lexeme names mem_cons_self given among
      rw [← String.toList_ofList (l := given)] at named
      exact fun {_ _ _ _} used => recordedUse_localised named used

/-! ### The own code of a module in the result -/

/-- A stretch of the own file of a module that no directive reaches into. It begins and ends with
characters that no reference has, unless it begins or ends the file. -/
structure OwnStretch (context : Context) (built : Built) (left stretch right : Text) : Prop where
  code : context.fileCode? built.file = some (left ++ stretch ++ right)
  start : left = [] ∨ ∃ c ∈ stretch.head?, isStop c = true
  stop : right = [] ∨ ∃ c ∈ stretch.getLast?, isStop c = true
  requires : Text.Clear Directive.require (qualifyReferences built.name.toList left)
    (qualifyReferences built.name.toList stretch)
    (qualifyReferences built.name.toList right)
  uses : ∀ front back,
    built.code = front ++ qualifyReferences built.name.toList stretch ++ back →
    Text.Clear use front (qualifyReferences built.name.toList stretch) back

theorem OwnStretch.text {left stretch right : Text} (own : context.OwnStretch built left stretch right)
    (assembled : context.Assembled built) (has : context.localesOf? built.name = some table) :
    ∃ before after,
      built.text = before ++ qualifyReferences built.name.toList stretch ++ after ∧
      (left = [] → before = []) ∧ (right = [] → after = ['\n']) := by
  obtain ⟨full, labels⟩ := assembled.labelled _ rfl
  obtain ⟨module_, code, state, final, known, fileAt, passed, expanded⟩ := assembled.code
  have splits := qualify_splits labels
  rw [own.code] at passed
  cases passed
  have script := (addLocales_eq known {} (left ++ stretch ++ right)).2 table has
  rw [← fileAt] at script
  have written : qualifyReferences built.name.toList (left ++ stretch ++ right) =
      qualifyReferences built.name.toList left ++
        qualifyReferences built.name.toList stretch ++
          qualifyReferences built.name.toList right := by
    have ended : qualifyReferences built.name.toList (left ++ stretch) =
        qualifyReferences built.name.toList left ++
          qualifyReferences built.name.toList stretch := by
      rcases own.start with rfl | ⟨c, first, stops⟩
      · rw [splits.nothing, nil_append, nil_append]
      · exact splits.append_of_right stops first left
    rcases own.stop with rfl | ⟨c, last, stops⟩
    · rw [splits.nothing, append_nil, append_nil, ended]
    · have lastOf : (left ++ stretch).getLast? = some c := by
        rw [getLast?_append, last]
        rfl
      rw [splits.append_of_left stops lastOf, ended]
  rw [script, written] at expanded
  -- first the files that the module requires are put in, then its `use` directives are taken out
  obtain ⟨fuel, more⟩ : ∃ fuel, context.requireFuel = fuel + 1 := ⟨_, rfl⟩
  rw [more, expandRequires] at expanded
  obtain ⟨front, back, codeAt, frontEmpty, backEmpty⟩ := own.requires.weave? _ expanded
  have body := weave?_writePieces (fun _ _ => []) (cut use built.code)
  rw [codeAt] at body
  obtain ⟨before, after, bodyAt, beforeEmpty, afterEmpty⟩ := (own.uses front back codeAt).weave? _ body
  refine ⟨before, after ++ ['\n'], ?_, ?_, ?_⟩
  · rw [Built.text, dropUses, Text.replace, codeAt, bodyAt, append_assoc _ after]
  · rintro rfl
    exact beforeEmpty (frontEmpty splits.nothing)
  · rintro rfl
    rw [afterEmpty (backEmpty splits.nothing)]
    rfl

theorem lineEnded_texts (modules : List Built) : LineEnded (modules.flatMap Built.text) := by
  induction modules with
  | nil => exact .inl rfl
  | cons built rest ih => exact LineEnded.append (.inr getLast?_concat) ih

theorem recordedDirectives_text {text : Text} (builds : context.settings.buildModules = true)
    (done : context.recordedDirectives progress (cut use code) =
      some (text, after, record)) (member : built ∈ modules record) :
    ∃ before rest, text = before ++ built.text ++ rest ∧
      (startsLines true (cut use code) = true → LineEnded before) := by
  obtain ⟨insertion, noted, isBuilt⟩ := mem_filterMap.mp member
  obtain ⟨left, lexeme, names, right, before, start, written, next, inner, rest, pieces, walked,
    stepped, within, rfl⟩ := weaveRecorded_split _ done noted
  have writes := (recordedNames_run builds stepped).1
  have among : built ∈ modules inner := mem_filterMap.mpr ⟨insertion, within, isBuilt⟩
  obtain ⟨early, late, split⟩ := append_of_mem among
  rw [split, flatMap_append, flatMap_cons] at writes
  refine ⟨before ++ early.flatMap Built.text, late.flatMap Built.text ++ rest, ?_, fun starts => ?_⟩
  · rw [writes]
    simp only [append_assoc]
  · rw [pieces] at starts
    have begun := weave?_ended _ (startsLines_split starts) walked
    exact begun.append (lineEnded_texts early)

end Context

/-! ### What becomes of a reference -/

namespace Settings

/-- A stretch of a module's code is shown in a result: it stands there with its references resolved, the
same as before except that each names a module. -/
structure Shows (settings : Settings) (table : LocaleTable) (name : String)
    (stretch output : Text) : Prop where
  within : ∃ before after, output = resolveSelf (before ++
    substitute settings.language table settings.pluginTable
      (qualifyReferences name.toList stretch) ++ after)
  references :
    occurrences reference (qualifyReferences name.toList stretch) =
      (occurrences reference stretch).map (Locale.Reference.inModule name.toList)

/-- A module has a text for the start of a reference's key, and no longer start has one. -/
structure Finds (settings : Settings) (table own : LocaleTable) (name : String)
    (reference : Locale.Reference) (count : Nat) (text : String) : Prop where
  positive : 0 < count
  within : count ≤ reference.segments.length
  own : own.get? settings.language (dotted (reference.segments.take count)) = some text
  longer : ∀ more, count < more → more ≤ reference.segments.length →
    lookup? settings.language table settings.pluginTable (some name.toList)
      (dotted (reference.segments.take more)) = none

/-- A reference in the code of a module becomes a literal and what is left of its key, and references to
the plugin are written out in the literal on its own. -/
structure Yields (settings : Settings) (table : LocaleTable) (name : String)
    (reference : Locale.Reference) (count : Nat) (text : String) : Prop where
  resolved : (reference.inModule name.toList).resolve settings.language table settings.pluginTable =
    literalWith text (reference.segments.drop count)
  apart : ∀ before after,
    resolveSelf
        (before ++ literalWith text (reference.segments.drop count) ++ after) =
      resolveSelf before ++ resolveSelf (Json.quoted text.toList) ++
        resolveSelf ((reference.segments.drop count).flatMap ('.' :: ·) ++ after)

theorem Finds.yields {settings : Settings} {own : LocaleTable} {reference : Locale.Reference}
    {count : Nat} {text first : String} (found : settings.Finds table own name reference count text)
    (plain : reference.space = none) (has : table.get? settings.language
      (name ++ "." ++ dotted (reference.segments.take count)) = some first) :
    settings.Yields table name reference count first where
  resolved := by
    have space : (reference.inModule name.toList).space = some name.toList := by
      rw [Locale.Reference.inModule, plain]
      rfl
    have within : count ≤ (reference.inModule name.toList).segments.length := found.within
    apply resolve_eq found.positive within
    · rw [space]
      apply lookup?_of_module
      rw [String.ofList_toList]
      exact has
    · rw [space]
      exact found.longer
  apart before after := by
    rw [literalWith, ← append_assoc, append_assoc _ _ after]
    exact resolveSelf_literal before first _

end Settings

theorem Context.shows {text : Text} {left stretch right : Text}
    (done : context.recordedDirectives progress (cut use code) =
      some (text, after, record)) (assembled : context.Assembled built)
    (member : built ∈ modules record) (has : context.localesOf? built.name = some table)
    (own : context.OwnStretch built left stretch right)
    (starts : left = [] → startsLines true (cut use code) = true) :
    context.settings.Shows after.moduleTable built.name stretch
      (context.settings.finish after text) where
  references := by
    obtain ⟨full, labels⟩ := assembled.labelled _ rfl
    exact occurrences_qualify labels full stretch
  within := by
    have splits := substitute_splits context.settings.language after.moduleTable
      context.settings.pluginTable
    obtain ⟨front, back, rfl, frontEnded⟩ := recordedDirectives_text assembled.builds done member
    obtain ⟨before, rest, written, beforeEmpty, restEnded⟩ := own.text assembled has
    obtain ⟨full, labels⟩ := assembled.labelled _ rfl
    have newline : isStop '\n' = true := by decide
    have split : front ++ built.text ++ back = front ++ before ++
        (qualifyReferences built.name.toList stretch ++ (rest ++ back)) := by
      rw [written]
      simp only [append_assoc]
    refine ⟨substitute context.settings.language after.moduleTable
        context.settings.pluginTable (front ++ before),
      substitute context.settings.language after.moduleTable
        context.settings.pluginTable (rest ++ back), congrArg resolveSelf ?_⟩
    have last : substitute context.settings.language after.moduleTable
        context.settings.pluginTable
          (qualifyReferences built.name.toList stretch ++ (rest ++ back)) =
        substitute context.settings.language after.moduleTable context.settings.pluginTable
            (qualifyReferences built.name.toList stretch) ++
          substitute context.settings.language after.moduleTable context.settings.pluginTable
            (rest ++ back) := by
      rcases own.stop with none | ⟨c, ends, stops⟩
      · apply splits.append_of_right newline
        rw [restEnded none]
        rfl
      · exact splits.append_of_left stops
          ((qualify_splits labels).getLast? stops ends) _
    rw [split, append_assoc _ _ (substitute _ _ _ _), ← last]
    rcases own.start with none | ⟨c, begins, stops⟩
    · rw [beforeEmpty none, append_nil]
      rcases frontEnded (starts none) with rfl | ends
      · rw [splits.nothing, nil_append, nil_append]
      · exact splits.append_of_left newline ends _
    · apply splits.append_of_right stops
      rw [head?_append, head?_qualify labels, begins]
      rfl

namespace Job

def required (job : Job) (tree : Tree) (compiler : Compiler) : Text :=
  let context := job.context tree compiler
  match job.settings.source tree with
  | .error _ => []
  | .ok source =>
      match context.pass (job.file? tree) (job.begun tree) (job.fullSource source) with
      | (.error _, _) => []
      | (.ok code, progress) =>
          let code := if job.settings.wrap then isolated code else code
          ((context.expandRequires context.requireFuel job.settings.folder progress code).map
            (·.1)).getD []

private theorem compile_eq_ok {job done : Job} {tree : Tree} {compiler : Compiler} {output : Text}
    (compiled : job.compile tree compiler = (.ok output, done)) :
    ∃ begun text after record,
      (job.context tree compiler).recordedDirectives begun
        (cut use (job.required tree compiler)) = some (text, after, record) ∧
      modules (job.inlined tree compiler) = modules record ∧
      begun.moduleTable = job.progress.moduleTable ∧
      done.progress.moduleTable = after.moduleTable ∧
      output = job.settings.finish after text := by
  have ended := job.compiles tree compiler
  rw [compiled] at ended
  cases ended with
  | @ended source code _ progress _ given passed expanded =>
    have kept := pass_related SameTable.ignoresNotes (job.context tree compiler) (job.file? tree)
      (job.begun tree) (job.fullSource source)
    rw [passed] at kept
    unfold required inlined
    rw [given]
    dsimp only
    rw [passed]
    dsimp only
    obtain ⟨_, recorded, same⟩ := map_eq_some_iff.mp
      ((withoutRecord_recordedExpand _ _ _ _).trans expanded)
    obtain ⟨⟨middle, begun, own⟩, requires, rest⟩ := bind_eq_some_iff.mp recorded
    obtain ⟨⟨text, last, more⟩, uses, whole⟩ := bind_eq_some_iff.mp rest
    cases whole
    cases same
    rw [recorded, ← withoutRecord_recordedRequires]
    refine ⟨begun, _, _, more, ?_, ?_, ?_, ?_, rfl⟩
    · rw [requires]
      exact uses
    · change modules (own ++ more) = _
      rw [modules_append, (recordedRequires_modules requires).1, nil_append]
    · have begins : SameTable job.progress (job.begun tree) :=
        job.begun_related SameTable.ignoresNotes.refl moduleTable_markFile tree
      exact (recordedRequires_table requires).trans (kept.trans begins)
    · exact compiler.check_related SameTable.ignoresNotes _ _ _

/-- The texts of the built modules are merged into the table of the job one after the other. Where a
module has texts, each stretch of its own file that no directive reaches into is shown in the result. A
reference in it that names no module, and for which the module has a text, becomes the literal of the
first text that is claimed for its key in the module, by whichever module. -/
theorem compile_moduleTexts {job done : Job} {tree : Tree} {compiler : Compiler} {output : Text}
    (compiled : job.compile tree compiler = (.ok output, done)) :
    ∃ added : List (String × LocaleTable),
      added.Perm ((Insertion.modules (job.inlined tree compiler)).flatMap fun built =>
        (job.context tree compiler).localeEntry built.name) ∧
      done.progress.moduleTable = job.progress.moduleTable.mergeAll added ∧
      ∀ built ∈ Insertion.modules (job.inlined tree compiler), ∀ own,
        (job.context tree compiler).localesOf? built.name = some own →
        ∀ left stretch right, (job.context tree compiler).OwnStretch built left stretch right →
          (left = [] →
            Text.startsLines true (Text.cut Directive.use (job.required tree compiler)) = true) →
          job.settings.Shows done.progress.moduleTable built.name stretch output ∧
          ∀ reference ∈ Text.occurrences Locale.reference stretch, reference.space = none →
            ∀ count text,
              job.settings.Finds done.progress.moduleTable own built.name reference count text →
              let claims := LocaleTable.claims job.progress.moduleTable added job.settings.language
                (built.name ++ "." ++ Locale.dotted (reference.segments.take count))
              text ∈ claims ∧ ∃ first, claims.head? = some first ∧
                job.settings.Yields done.progress.moduleTable built.name reference count first := by
  obtain ⟨begun, text, after, record, directives, modules, tableBefore, tableAfter, rfl⟩ :=
    compile_eq_ok compiled
  have localised := Context.recordedDirectives_localised directives
  obtain ⟨added, perm, merged⟩ := localised.table
  rw [modules, tableAfter]
  rw [tableBefore] at merged
  have distinct : ∀ item ∈ added, (Keyed.keys item.2.languages).Nodup := by
    intro item member
    obtain ⟨module_, _, entry⟩ := List.mem_flatMap.mp (perm.mem_iff.mp member)
    obtain ⟨table, has, rfl⟩ := List.mem_map.mp entry
    exact Context.localesOf?_distinct (Option.mem_toList.mp has)
  refine ⟨added, perm, merged, fun built member own has left stretch right within starts => ⟨?_, ?_⟩⟩
  · have assembled := localised.assembled built member
    exact Context.shows directives assembled member has within starts
  · intro reference _ plain count text found claims
    have entry : (built.name, own) ∈ added := by
      refine perm.mem_iff.mpr (List.mem_flatMap.mpr ⟨built, member, ?_⟩)
      exact List.mem_map.mpr ⟨own, Option.mem_toList.mpr has, rfl⟩
    have among : text ∈ claims := LocaleTable.mem_claims _ entry found.own
    refine ⟨among, claims.head (List.ne_nil_of_mem among), List.head?_eq_some_head _, ?_⟩
    apply found.yields plain
    rw [merged, LocaleTable.get?_mergeAll distinct]
    exact List.head?_eq_some_head _

def neighbourTree : Tree where
  entries :=
    [(["a.js"], .file "a(lx(i18n).b.c);\n".toList),
     (["a.json"], .file "\x7b\"en\": \x7b\"b\": \x7b\"c\": \"from a\"\x7d\x7d\x7d".toList),
     (["b.js"], .file "b(lx(i18n).c);\n".toList),
     (["b.json"], .file "\x7b\"en\": \x7b\"c\": \"from a.b\"\x7d\x7d".toList)]
  home := []

def neighbourCompiler : Compiler where
  modules := {
    root := ⟨"/"⟩
    modules := [
      ("a", { name := "a", path := "a.js", metadata := [("i18n", .text "a.json")] }),
      ("a.b", { name := "a.b", path := "b.js", metadata := [("i18n", .text "b.json")] })] }
  widgets := .empty

def neighbourJob : Job where
  settings := { side := .client, code := some "@lx:use a, a.b;".toList }

/-- The second module has a text for its reference, but the reference becomes another literal. -/
theorem compile_moduleTexts_neighbours :
    ∃ output done own reference first,
      neighbourJob.compile neighbourTree neighbourCompiler = (.ok output, done) ∧
      reference ∈ Text.occurrences Locale.reference "b(lx(i18n).c);\n".toList ∧
      neighbourJob.settings.Finds done.progress.moduleTable own "a.b" reference 1 "from a.b" ∧
      neighbourJob.settings.Yields done.progress.moduleTable "a.b" reference 1 first ∧
      first ≠ "from a.b" := by
  obtain ⟨output, answer⟩ := Option.isSome_iff_exists.mp
    (by decide +kernel :
      (neighbourJob.compile neighbourTree neighbourCompiler).1.toOption.isSome = true)
  have compiled : neighbourJob.compile neighbourTree neighbourCompiler =
      (.ok output, (neighbourJob.compile neighbourTree neighbourCompiler).2) :=
    Prod.ext (toOption_eq_some.mp answer) rfl
  obtain ⟨own, has⟩ := Option.isSome_iff_exists.mp
    (by decide +kernel : ((neighbourJob.context neighbourTree neighbourCompiler).localesOf?
      "a.b").isSome = true)
  have texts : ((neighbourJob.context neighbourTree neighbourCompiler).localesOf? "a.b").bind
      (·.get? "en" "c") = some "from a.b" := by decide +kernel
  obtain ⟨built, member, known⟩ := List.mem_map.mp
    (by decide +kernel : ("a.b", (⟨"/b.js"⟩ : Path), "b(lx(i18n:a.b).c);\n".toList) ∈
      (Insertion.modules (neighbourJob.inlined neighbourTree neighbourCompiler)).map
        fun built => (built.name, built.file, built.code))
  obtain ⟨name, file, code⟩ := built
  cases known
  have stretch : (neighbourJob.context neighbourTree neighbourCompiler).OwnStretch
      ⟨"a.b", ⟨"/b.js"⟩, "b(lx(i18n:a.b).c);\n".toList⟩ [] "b(lx(i18n).c);\n".toList [] :=
    { code := by decide +kernel
      start := .inl rfl
      stop := .inl rfl
      requires := .of_none (by decide +kernel)
      uses := fun front back same => .of_none (by rw [← same]; decide +kernel) }
  obtain ⟨added, _, _, all⟩ := compile_moduleTexts compiled
  have listed : Text.occurrences Locale.reference "b(lx(i18n).c);\n".toList =
      [{ space := none, segments := [['c']], called := false }] := by
    rfl
  have among : { space := none, segments := [['c']], called := false } ∈
      Text.occurrences Locale.reference "b(lx(i18n).c);\n".toList := by
    rw [listed]
    exact List.mem_singleton_self _
  have found : neighbourJob.settings.Finds
      (neighbourJob.compile neighbourTree neighbourCompiler).2.progress.moduleTable own "a.b"
      { space := none, segments := [['c']], called := false } 1 "from a.b" :=
    { positive := by decide
      within := by decide
      own := by rwa [has, Option.bind_some] at texts
      longer := fun more above below => absurd (Nat.lt_of_lt_of_le above below) (by decide) }
  obtain ⟨_, references⟩ := all _ member own has _ _ _ stretch fun _ => by decide +kernel
  obtain ⟨_, first, _, yields⟩ := references _ among rfl 1 _ found
  refine ⟨output, _, own, _, first, compiled, among, found, yields, fun same => ?_⟩
  have resolved := yields.resolved
  rw [same] at resolved
  revert resolved
  decide +kernel

end Job

end PageScript
