import PageScript.Proofs.Compile.Filled
import PageScript.Proofs.Data.Compact

/-! Plain data that is written into a script, as placeholders that are filled (`compile_eq_settled`). -/

open List

namespace PageScript

open Text Directive Filling Context Option

variable {code : Text} {names : Format × Text → Char} {documents : Char → PlainData}

/-! ### Documents -/

/-- Whether the text of a value stands between two marks. -/
def Data.isEnclosed : Data → Bool
  | .text _ | .list _ | .record _ => true
  | .null | .bool _ | .number _ => false

/-- A value whose compact text no step of a compilation finds anything in. -/
structure PlainData where
  data : Data
  enclosed : data.isEnclosed = true
  unmarked : Unmarked (Json.compact data)
  headless : ClassHeader.Headless (Json.compact data).dropLast

namespace PlainData

def text (document : PlainData) : Text :=
  Json.compact document.data

private theorem exists_text (document : PlainData) :
    ∃ first inner last, document.text = first :: inner ++ [last] ∧ isOpening first = true ∧
      isEnding last = true := by
  obtain ⟨data, enclosed, _, _⟩ := document
  cases data with
  | null => cases enclosed
  | bool value => cases enclosed
  | number value => cases enclosed
  | text value => exact ⟨'\x22', _, '\x22', rfl, by decide, by decide⟩
  | list items => exact ⟨'[', _, ']', rfl, by decide, by decide⟩
  | record fields => exact ⟨'{', _, '}', rfl, by decide, by decide⟩

end PlainData

def Filling.ofData (documents : Char → PlainData) : Filling where
  text c := if isHole c then (documents c).text else [c]
  same c plain := by rw [plain]; rfl
  opens c hole := by
    obtain ⟨first, inner, last, whole, opening, _⟩ := (documents c).exists_text
    exact ⟨first, inner ++ [last], by rw [if_pos hole, whole]; rfl, opening⟩
  ends c hole := by
    obtain ⟨first, inner, last, whole, _, ending⟩ := (documents c).exists_text
    exact ⟨first :: inner, last, by rw [if_pos hole, whole], ending⟩

theorem Filling.ofData_text (documents : Char → PlainData) {c : Char} (hole : isHole c = true) :
    (ofData documents).text c = (documents c).text :=
  if_pos hole

theorem Filling.opaque_ofData (documents : Char → PlainData) :
    (ofData documents).Opaque where
  unmarked c hole := by
    rw [ofData_text documents hole]
    exact (documents c).unmarked
  headless c hole := by
    rw [ofData_text documents hole]
    exact (documents c).headless
  solid c hole := by
    rw [ofData_text documents hole]
    exact (Json.compact_sturdy _).solid
  oneLine c hole := by
    rw [ofData_text documents hole]
    exact (Json.compact_sturdy _).flat

/-! ### Outlines -/

namespace Context

def shown (context : Context) (file : Option Path) (progress : Progress) (code : Text) :
    Text × Progress :=
  let (code, progress) :=
    context.expandTemplates (context.labelOf file) file progress (dropCommentedOut code)
  let code := dropModuleDirectives (Script.stripComments code)
  (filterBlocks "context" context.settings.side.label.toList code, progress)

theorem prepare_eq (context : Context) (file : Option Path) (progress : Progress) (code : Text) :
    context.prepare (context.labelOf file) (context.baseOf file) file progress code =
      context.injectData (context.baseOf file) file (context.shown file progress code).2
        (context.shown file progress code).1 := by
  unfold prepare shown
  rfl

/-- The script with a placeholder for each reference to data. -/
def outlined (names : Format × Text → Char) (code : Text) : Text :=
  Text.replace dataReference (fun reference => [names reference]) code

/-- The placeholders of references stand for the documents that they refer to. -/
def Holds (context : Context) (base : Path) (names : Format × Text → Char)
    (documents : Char → PlainData) (code : Text) : Prop :=
  ∀ reference ∈ occurrences dataReference code, isHole (names reference) = true ∧
    context.dataText reference.1 (base.join ⟨String.ofList reference.2⟩).normalize =
      .ok (documents (names reference)).text

private theorem isHole_of_plain (free : Free code) {c : Char}
    (member : .plain c ∈ cut dataReference code) : isHole c = false := by
  refine free c ?_
  rw [← flatMap_source_cut dataReference code]
  exact mem_flatMap.mpr ⟨_, member, mem_singleton_self c⟩

private theorem holes_outlined (free : Free code)
    (named : ∀ reference ∈ occurrences dataReference code,
      isHole (names reference) = true) :
    holes (outlined names code) = (occurrences dataReference code).map names := by
  have plain := fun c => isHole_of_plain (c := c) free
  unfold outlined Text.replace
  unfold occurrences at named ⊢
  generalize cut dataReference code = pieces at plain named ⊢
  induction pieces with
  | nil => rfl
  | cons first rest ih =>
    have others := fun c member => plain c (mem_cons_of_mem first member)
    cases first with
    | plain c =>
      change holes ([c] ++ writePieces _ rest) = _
      rw [holes_append, ih others named,
        Free.holes (forall_mem_singleton.mpr (plain c mem_cons_self))]
      rfl
    | found lexeme reference =>
      obtain ⟨hole, later⟩ := forall_mem_cons.mp named
      change holes ([names reference] ++ writePieces _ rest) = _
      rw [holes_append, ih others later, holes, filter_cons_of_pos hole]
      rfl

private theorem injectData_eq {context : Context} {base : Path}
    (free : Free code) (holds : context.Holds base names documents code) (file : Option Path)
    (progress : Progress) :
    context.injectData base file progress code =
      ((ofData documents).fill (outlined names code), progress) := by
  have plain := fun c => isHole_of_plain (c := c) free
  unfold injectData outlined Text.replace
  unfold Holds occurrences at holds
  generalize cut dataReference code = pieces at plain holds ⊢
  induction pieces with
  | nil => rfl
  | cons first rest ih =>
    have others := fun c member => plain c (mem_cons_of_mem first member)
    cases first with
    | plain c =>
      rw [weave, ih others holds]
      change _ = ((ofData documents).fill (c :: _), progress)
      rw [fill_plain _ (plain c mem_cons_self)]
      rfl
    | found lexeme reference =>
      obtain ⟨⟨hole, read⟩, later⟩ := forall_mem_cons.mp holds
      rw [weave]
      dsimp only
      rw [read]
      dsimp only
      rw [ih others later]
      change _ = ((ofData documents).fill (names reference :: _), progress)
      rw [fill_cons, ofData_text documents hole]
      rfl

end Context

/-! ### What is included -/

namespace Context

theorem ClearOfPass.congr {context other : Context} (same : other.settings = context.settings)
    {file : Option Path} {prepared : Text} (clear : context.ClearOfPass file prepared) :
    other.ClearOfPass file prepared := by
  have label : other.labelOf file = context.labelOf file := by
    unfold labelOf
    rw [same]
  refine ⟨clear.sheltered, fun done => clear.scripts ?_, fun done => clear.styles ?_⟩
  · rwa [← label]
  · rwa [← label]

/-- Two contexts in which the same code is included. -/
structure IncludesAlike (context other : Context) (progress : Progress) (code : Text) : Prop where
  required : other.expandRequires other.requireFuel context.settings.folder progress code =
    context.expandRequires context.requireFuel context.settings.folder progress code
  used : ∀ {text after},
    context.expandRequires context.requireFuel context.settings.folder progress code =
      some (text, after) → other.expandUses after text = context.expandUses after text

namespace IncludesAlike

variable {context other : Context} {progress : Progress} {code : Text}

private theorem expand (alike : context.IncludesAlike other progress code) :
    other.expand context.settings.folder progress code =
      context.expand context.settings.folder progress code := by
  rw [expand_eq, expand_eq, alike.required]
  cases required : context.expandRequires context.requireFuel context.settings.folder progress code with
  | none => rw [bind_none, bind_none]
  | some found =>
    rw [bind_some, bind_some]
    exact alike.used required

private theorem included (alike : context.IncludesAlike other progress code)
    (same : other.settings = context.settings) :
    other.included progress code = context.included progress code := by
  have expanding := alike.expand
  rw [← same] at expanding
  cases expanded : other.expand other.settings.folder progress code with
  | none =>
    rw [expanded, same] at expanding
    rw [included_of_none expanded, included_of_none expanding.symm]
  | some found =>
    obtain ⟨text, after⟩ := found
    rw [expanded, same] at expanding
    rw [included_of_some expanded, included_of_some expanding.symm, same]

private theorem clear (alike : context.IncludesAlike other progress code)
    (same : other.settings = context.settings) (clear : context.ClearOfInclusions progress code) :
    other.ClearOfInclusions progress code where
  requires := clear.requires
  uses required := by
    rw [same, alike.required] at required
    exact clear.uses required
  required required := by
    rw [same, alike.required] at required
    exact clear.required required
  used required used := by
    rw [same, alike.required] at required
    rw [alike.used required] at used
    exact clear.used required used
  finished expanded := by
    rw [same, alike.expand] at expanded
    rw [same]
    exact clear.finished expanded

end IncludesAlike

private theorem expandRequires_unmarked (unmarked : Unmarked code) (context : Context) (base : Path)
    (progress : Progress) :
    context.expandRequires context.requireFuel base progress code = some (code, progress) := by
  unfold requireFuel
  generalize Nat.pow _ _ = size
  rw [expandRequires]
  exact require_needs.weave? unmarked.directive _ progress

private theorem unreached_of_unmarked (unmarked : Unmarked code) {start : String}
    (directive : "@lx:".toList <+: start.toList) : Unreached start code := by
  intro part within begun
  exact absurd ((directive.trans begun).isInfix.trans within.isInfix) unmarked.directive

theorem ClearOfInclusions.of_unmarked (unmarked : Unmarked code) (context : Context)
    (progress : Progress) : context.ClearOfInclusions progress code where
  requires := unreached_of_unmarked unmarked ⟨"require".toList, rfl⟩
  uses required := by
    rw [expandRequires_unmarked unmarked] at required
    cases required
    exact unreached_of_unmarked unmarked ⟨"use".toList, rfl⟩
  required required := by
    rw [expandRequires_unmarked unmarked] at required
    cases required
    exact .of_holes rfl
  used required used := by
    rw [expandRequires_unmarked unmarked] at required
    cases required
    rw [expandUses, useDirectives, use_needs.weave? unmarked.directive] at used
    cases used
    exact .of_holes rfl
  finished expanded := by
    rw [expand_unmarked unmarked] at expanded
    cases expanded
    rw [Settings.finish_unmarked unmarked]
    exact .of_holes rfl

theorem IncludesAlike.of_unmarked (unmarked : Unmarked code) (context other : Context)
    (progress : Progress) : context.IncludesAlike other progress code where
  required := by
    rw [expandRequires_unmarked unmarked, expandRequires_unmarked unmarked]
  used required := by
    rw [expandRequires_unmarked unmarked] at required
    cases required
    rw [expandUses, useDirectives, use_needs.weave? unmarked.directive, expandUses,
      useDirectives, use_needs.weave? unmarked.directive]

end Context

/-! ### Jobs -/

namespace Job

def settled (job : Job) (compiler : Compiler) (file : Option Path) :
    Except Failure Text × Progress → Except Failure Text × Job
  | (.ok code, progress) =>
      (.ok code, { job with requested := [], progress := compiler.check file progress code })
  | (.error failure, progress) => (.error failure, { job with requested := [], progress })

private theorem compile_eq {job : Job} {tree : Tree} {source : Text}
    (given : job.settings.source tree = .ok source) (compiler : Compiler) :
    job.compile tree compiler = job.settled compiler (job.file? tree)
      ((job.context tree compiler).complete (job.file? tree)
        ((job.context tree compiler).prepare (job.label tree compiler) (job.base tree compiler)
          (job.file? tree) (job.begun tree) (job.fullSource source)).2
        (job.prepared tree compiler source)) := by
  have passing := (job.context tree compiler).pass_eq (job.file? tree) (job.begun tree)
    (job.fullSource source)
  have compiled := job.compiles tree compiler
  unfold prepared
  generalize job.compile tree compiler = answer at compiled ⊢
  cases compiled with
  | unread missing => cases given.symm.trans missing
  | violated again failed =>
    cases given.symm.trans again
    rw [complete_of_error (passing.symm.trans failed)]
    rfl
  | endless again passed stuck =>
    cases given.symm.trans again
    rw [complete_of_ok (passing.symm.trans passed), Settings.enclosed, included_of_none stuck]
    rfl
  | ended again passed expanded =>
    cases given.symm.trans again
    rw [complete_of_ok (passing.symm.trans passed), Settings.enclosed, included_of_some expanded]
    rfl

def shown (job : Job) (tree : Tree) (compiler : Compiler) (source : Text) : Text × Progress :=
  (job.context tree compiler).shown (job.file? tree) (job.begun tree) (job.fullSource source)

def outline (job : Job) (tree : Tree) (compiler : Compiler) (source : Text)
    (names : Format × Text → Char) : Text :=
  outlined names (job.shown tree compiler source).1

def template (job : Job) (tree : Tree) (compiler : Compiler) (source : Text)
    (names : Format × Text → Char) : Except Failure Text × Progress :=
  (job.context tree compiler).complete (job.file? tree) (job.shown tree compiler source).2
    (job.outline tree compiler source names)

/-- The script has no placeholders of its own, and those of its references keep clear of every step. -/
structure Clear (job : Job) (tree : Tree) (compiler : Compiler) (source : Text)
    (names : Format × Text → Char) : Prop where
  free : Free (job.shown tree compiler source).1
  steps : (job.context tree compiler).Clear (job.file? tree) (job.shown tree compiler source).2
    (job.outline tree compiler source names)

/-- The script refers to the documents of its placeholders. In a constant, which goes up to a semicolon, a
document has none. -/
structure RefersTo (job : Job) (tree : Tree) (compiler : Compiler) (source : Text)
    (names : Format × Text → Char) (documents : Char → PlainData) : Prop where
  holds : (job.context tree compiler).Holds (job.base tree compiler) names documents
    (job.shown tree compiler source).1
  calm : (ofData documents).Calm "@lx:const" (job.outline tree compiler source names)

private theorem compile_eq_settled {job : Job} {tree : Tree} {compiler : Compiler} {source : Text}
    (given : job.settings.source tree = .ok source) (clear : job.Clear tree compiler source names)
    (refers : job.RefersTo tree compiler source names documents) :
    job.compile tree compiler = job.settled compiler (job.file? tree)
      ((job.template tree compiler source names).1.map (ofData documents).fill,
        (job.template tree compiler source names).2) := by
  have injected : (job.context tree compiler).prepare (job.label tree compiler)
      (job.base tree compiler) (job.file? tree) (job.begun tree) (job.fullSource source) =
        ((ofData documents).fill (job.outline tree compiler source names),
          (job.shown tree compiler source).2) := by
    rw [prepare_eq]
    exact injectData_eq clear.free refers.holds _ _
  have filled := complete_fill (opaque_ofData documents) clear.steps refers.calm
  rw [compile_eq given, prepared, injected, filled]
  rfl

/-- Two trees with which a job goes alike, its data apart: they have the same source, and what the script
includes is the same. -/
structure Alike (job : Job) (compiler : Compiler) (tree other : Tree) (source : Text)
    (names : Format × Text → Char) : Prop where
  given : job.settings.source other = job.settings.source tree
  file : job.file? other = job.file? tree
  inclusions : ∀ {code progress},
    (job.context tree compiler).passPrepared (job.file? tree) (job.shown tree compiler source).2
      (job.outline tree compiler source names) = (.ok code, progress) →
    (job.context tree compiler).IncludesAlike (job.context other compiler) progress
      (job.settings.enclosed code)

namespace Alike

variable {job : Job} {compiler : Compiler} {tree other : Tree} {source : Text}
  {names : Format × Text → Char}

private theorem shown (alike : job.Alike compiler tree other source names) :
    job.shown other compiler source = job.shown tree compiler source := by
  unfold Job.shown begun
  rw [alike.file]
  rfl

private theorem passPrepared (alike : job.Alike compiler tree other source names) :
    (job.context other compiler).passPrepared (job.file? other) (job.shown other compiler source).2
        (job.outline other compiler source names) =
      (job.context tree compiler).passPrepared (job.file? tree) (job.shown tree compiler source).2
        (job.outline tree compiler source names) := by
  unfold outline
  rw [alike.shown, alike.file]
  rfl

private theorem template (alike : job.Alike compiler tree other source names) :
    job.template other compiler source names = job.template tree compiler source names := by
  have passing := alike.passPrepared
  unfold Job.template
  cases passed : (job.context tree compiler).passPrepared (job.file? tree)
      (job.shown tree compiler source).2 (job.outline tree compiler source names) with
  | mk answer progress =>
    rw [passed] at passing
    cases answer with
    | error violation => rw [complete_of_error passing, complete_of_error passed]
    | ok code =>
      rw [complete_of_ok passing, complete_of_ok passed]
      exact (alike.inclusions passed).included rfl

private theorem clear (alike : job.Alike compiler tree other source names)
    (clear : job.Clear tree compiler source names) : job.Clear other compiler source names := by
  have free : Free (job.shown other compiler source).1 := by
    rw [alike.shown]
    exact clear.free
  refine ⟨free, ⟨?_, ?_⟩⟩
  · unfold outline
    rw [alike.shown, alike.file]
    exact .congr (show (job.context other compiler).settings = job.settings from rfl)
      clear.steps.pass
  · intro code progress passed
    rw [alike.passPrepared] at passed
    exact (alike.inclusions passed).clear rfl (clear.steps.inclusions passed)

end Alike

theorem settled_of_unchecked {compiler : Compiler} (unchecked : compiler.checkSyntax = false) (job : Job)
    (file : Option Path) (answer : Except Failure Text) (progress : Progress) :
    (job.settled compiler file (answer, progress)).2 = { job with requested := [], progress } := by
  cases answer with
  | error failure => rfl
  | ok code =>
    rw [settled]
    dsimp only
    rw [Compiler.check, unchecked, if_neg Bool.false_ne_true]

/-- A script that refers to data has one outcome whatever the data is: its code, with the compact texts of
the documents at the places of the references, and the state that the job is in before the code is
checked. The places are those of all references that are not in a block for another mode, in their
order. -/
theorem compile_of_alike {job : Job} {compiler : Compiler} {tree other : Tree} {source : Text}
    {names : Format × Text → Char} (given : job.settings.source tree = .ok source)
    (alike : job.Alike compiler tree other source names)
    (clear : job.Clear tree compiler source names) {documents changed : Char → PlainData}
    (refers : job.RefersTo tree compiler source names documents)
    (changes : job.RefersTo other compiler source names changed) :
    job.compile tree compiler = job.settled compiler (job.file? tree)
        ((job.template tree compiler source names).1.map (Filling.ofData documents).fill,
          (job.template tree compiler source names).2) ∧
      job.compile other compiler = job.settled compiler (job.file? tree)
        ((job.template tree compiler source names).1.map (Filling.ofData changed).fill,
          (job.template tree compiler source names).2) ∧
      (compiler.checkSyntax = false →
        (job.compile other compiler).2 = (job.compile tree compiler).2) ∧
      ∀ code, (job.template tree compiler source names).1 = .ok code →
        ∃ desugared, ClassSugar.desugar (job.label tree compiler)
            (job.outline tree compiler source names) = .ok desugared ∧
          holes ((job.context tree compiler).bared (job.file? tree)
              (job.shown tree compiler source).2 desugared) =
            (Text.occurrences Directive.dataReference (job.shown tree compiler source).1).map names ∧
          holes code = holes (Directive.filterBlocks "mode" job.settings.mode.toList
            ((job.context tree compiler).bared (job.file? tree)
              (job.shown tree compiler source).2 desugared)) := by
  have first := compile_eq_settled given clear refers
  have second := compile_eq_settled (alike.given.trans given) (alike.clear clear) changes
  rw [alike.template, alike.file] at second
  refine ⟨first, second, fun unchecked => ?_, fun code completed => ?_⟩
  · rw [first, second, settled_of_unchecked unchecked, settled_of_unchecked unchecked]
  · have named := fun reference member => (refers.holds reference member).1
    obtain ⟨desugared, done⟩ := Context.desugar_of_complete completed
    obtain ⟨kept, left⟩ := Context.holes_complete clear.steps done
    exact ⟨desugared, done, kept.trans (Context.holes_outlined clear.free named), left code completed⟩

/-! ### A card -/

def cardSource : Text :=
  ("class A \x7b @lx:const T = lx(json, 't.json'); \x7d\n@lx:css a;" ++
    "@lx:<mode p: lx(json, 't.json') @lx:mode>f(lx(yaml, 'n.yaml'))").toList

def cardJob : Job where
  settings := { code := some cardSource, side := .client, base := some ⟨"/"⟩, wrap := true }

def cardCompiler : Compiler where
  modules := { root := ⟨"/"⟩ }
  widgets := .empty

def cardTree (title notes : String) : Tree where
  entries := [(["t.json"], .file title.toList), (["n.yaml"], .file notes.toList)]
  home := []

def cardNames (reference : Format × Text) : Char :=
  if reference.1 = .json then '\uE000' else '\uE001'

def cardOutline : Text :=
  ("class A \x7b @lx:const T = \uE000; \x7d\n@lx:css a;" ++
    "@lx:<mode p: \uE000 @lx:mode>f(\uE001)\n").toList

def cardDesugared : Text :=
  ("class A \x7b static get T() \x7b return \uE000; \x7d \x7d\n@lx:css a;" ++
    "@lx:<mode p: \uE000 @lx:mode>f(\uE001)\n").toList

def cardPassed : Text :=
  ("(function()\x7b\nclass A \x7b static get T() \x7b return \uE000; \x7d \x7d\n" ++
    "f(\uE001)\n\n\x7d)();").toList

def longCard (c : Char) : PlainData :=
  if c = '\uE000' then
    { data := .record [("class", .text "A \x7b"), ("of", .list [.number (.int 1), .null])]
      enclosed := rfl
      unmarked := ⟨by decide +kernel, by decide +kernel, by decide +kernel⟩
      headless := by decide +kernel }
  else
    { data := .list [.text "a;b", .bool true]
      enclosed := rfl
      unmarked := ⟨by decide +kernel, by decide +kernel, by decide +kernel⟩
      headless := by decide +kernel }

def shortCard (c : Char) : PlainData :=
  if c = '\uE000' then
    { data := .text "x"
      enclosed := rfl
      unmarked := ⟨by decide +kernel, by decide +kernel, by decide +kernel⟩
      headless := by decide +kernel }
  else
    { data := .record []
      enclosed := rfl
      unmarked := ⟨by decide +kernel, by decide +kernel, by decide +kernel⟩
      headless := by decide +kernel }

def longTree : Tree :=
  cardTree "\x7b\x22of\x22: [1, null], \x22class\x22: \x22A \x7b\x22\x7d" "- a;b\n- true\n"

def shortTree : Tree :=
  cardTree "\x22x\x22" "\x7b\x7d"

private theorem card_source (tree : Tree) : cardJob.settings.source tree = .ok cardSource := rfl

private theorem card_file (tree : Tree) : cardJob.file? tree = none := rfl

private theorem card_stages :
    (cardJob.shown longTree cardCompiler cardSource).1 = cardSource ++ ['\n'] ∧
      cardJob.outline longTree cardCompiler cardSource cardNames = cardOutline ∧
      occurrences dataReference (cardSource ++ ['\n']) =
        [(.json, "t.json".toList), (.json, "t.json".toList), (.yaml, "n.yaml".toList)] ∧
      (ClassSugar.desugar "<inline>" cardOutline).toOption.map (·.code) = some cardDesugared ∧
      cardJob.settings.enclosed (filterBlocks "mode" "dev".toList
        (collectAssets ⟨"/"⟩ {} cardDesugared).1) = cardPassed := by
  have shown : (cardJob.shown longTree cardCompiler cardSource).1 = cardSource ++ ['\n'] := by
    decide +kernel
  refine ⟨shown, ?_, by decide +kernel, by decide +kernel, by decide +kernel⟩
  rw [outline, shown]
  decide +kernel

private theorem card_desugar : ∃ desugared, desugared.code = cardDesugared ∧
    ClassSugar.desugar (cardJob.label longTree cardCompiler)
      (cardJob.outline longTree cardCompiler cardSource cardNames) = .ok desugared := by
  obtain ⟨_, outlined, _, known, _⟩ := card_stages
  obtain ⟨desugared, done, same⟩ := map_eq_some_iff.mp known
  rw [← outlined, toOption_eq_some] at done
  exact ⟨desugared, same, done⟩

private theorem card_code {desugared : ClassSugar.Desugared}
    (done : ClassSugar.desugar (cardJob.label longTree cardCompiler)
      (cardJob.outline longTree cardCompiler cardSource cardNames) = .ok desugared) :
    desugared.code = cardDesugared := by
  obtain ⟨_, same, again⟩ := card_desugar
  rw [← same, Except.ok.inj (done.symm.trans again)]

private theorem card_enclosed {progress : Progress}
    (passed : (cardJob.context longTree cardCompiler).passPrepared (cardJob.file? longTree)
      (cardJob.shown longTree cardCompiler cardSource).2
      (cardJob.outline longTree cardCompiler cardSource cardNames) = (.ok code, progress)) :
    cardJob.settings.enclosed code = cardPassed := by
  obtain ⟨_, _, _, _, final⟩ := card_stages
  obtain ⟨desugared, same, done⟩ := card_desugar
  rw [passPrepared_of_ok done] at passed
  rw [← Except.ok.inj (congrArg Prod.fst passed), ← final, ← same]
  exact congrArg (fun assets => cardJob.settings.enclosed (filterBlocks "mode" "dev".toList assets))
    (collectAssets_fst _ _ {} _)

private theorem cardPassed_unmarked : Unmarked cardPassed :=
  ⟨by decide +kernel, by decide +kernel, by decide +kernel⟩

theorem card_alike : cardJob.Alike cardCompiler longTree shortTree cardSource cardNames where
  given := (card_source shortTree).trans (card_source longTree).symm
  file := (card_file shortTree).trans (card_file longTree).symm
  inclusions passed := card_enclosed passed ▸ .of_unmarked cardPassed_unmarked _ _ _

private theorem card_clear : cardJob.Clear longTree cardCompiler cardSource cardNames where
  free := by
    rw [card_stages.1]
    decide +kernel
  steps := by
    refine ⟨⟨?_, fun done => ?_, fun done => ?_⟩, fun passed => ?_⟩
    · rw [card_stages.2.1]
      decide +kernel
    · rw [card_code done]
      decide +kernel
    · rw [card_code done]
      decide +kernel
    · rw [show (cardJob.context longTree cardCompiler).settings.enclosed _ = _ from card_enclosed passed]
      exact .of_unmarked cardPassed_unmarked _ _

theorem longCard_refers : cardJob.RefersTo longTree cardCompiler cardSource cardNames longCard where
  holds := by
    obtain ⟨shown, _, references, _⟩ := card_stages
    unfold Holds
    rw [shown, references]
    simp only [mem_cons, not_mem_nil, or_false]
    rintro reference (rfl | rfl | rfl)
    · exact ⟨by decide +kernel, toOption_eq_some.mp (by decide +kernel)⟩
    · exact ⟨by decide +kernel, toOption_eq_some.mp (by decide +kernel)⟩
    · exact ⟨by decide +kernel, toOption_eq_some.mp (by decide +kernel)⟩
  calm := by
    rw [card_stages.2.1]
    decide +kernel

theorem shortCard_refers : cardJob.RefersTo shortTree cardCompiler cardSource cardNames shortCard where
  holds := by
    obtain ⟨shown, _, references, _⟩ := card_stages
    unfold Holds
    rw [card_alike.shown, shown, references]
    simp only [mem_cons, not_mem_nil, or_false]
    rintro reference (rfl | rfl | rfl)
    · exact ⟨by decide +kernel, toOption_eq_some.mp (by decide +kernel)⟩
    · exact ⟨by decide +kernel, toOption_eq_some.mp (by decide +kernel)⟩
    · exact ⟨by decide +kernel, toOption_eq_some.mp (by decide +kernel)⟩
  calm := by
    rw [outline, card_alike.shown, ← outline, card_stages.2.1]
    decide +kernel

private theorem card_template :
    (cardJob.template longTree cardCompiler cardSource cardNames).1 = .ok cardPassed := by
  obtain ⟨desugared, _, done⟩ := card_desugar
  have passed := passPrepared_of_ok done (cardJob.shown longTree cardCompiler cardSource).2
  rw [template, complete_of_ok passed,
    show (cardJob.context longTree cardCompiler).settings.enclosed _ = _ from card_enclosed passed,
    included_of_some (expand_unmarked cardPassed_unmarked _ _ _),
    Settings.finish_unmarked cardPassed_unmarked]

theorem compile_of_alike_card :
    (cardJob.compile longTree cardCompiler).1 = .ok ((Filling.ofData longCard).fill cardPassed) ∧
      (cardJob.compile shortTree cardCompiler).1 = .ok ((Filling.ofData shortCard).fill cardPassed) ∧
      (cardJob.compile shortTree cardCompiler).2 = (cardJob.compile longTree cardCompiler).2 := by
  obtain ⟨first, second, same, _⟩ := compile_of_alike (card_source longTree) card_alike card_clear
    longCard_refers shortCard_refers
  refine ⟨?_, ?_, same rfl⟩
  · rw [first, card_template]
    rfl
  · rw [second, card_template]
    rfl

end Job

end PageScript
