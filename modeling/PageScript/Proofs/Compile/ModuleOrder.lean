import Mathlib.Data.List.Nodup
import Mathlib.Logic.Relation
import PageScript.Proofs.Compile.Steps

/-!
The order in which modules are built: each after those it uses, as far as they do not use it in turn,
and none twice. The invariant of a run is `ModuleRun`.
-/

open List

namespace PageScript

open Text Insertion Option

open Relation (TransGen ReflTransGen)

variable {smaller larger built left right : List Built} {user used name : String} {context : Context}
  {done names : List String} {fuel : Nat} {progress after : Progress} {text : Text}
  {record : List Insertion}

/-! ### Use among built modules -/

namespace Built

/-- Among the modules of a list, one that uses another. -/
def Uses (modules : List Built) (user used : String) : Prop :=
  ∃ built ∈ modules, built.name = user ∧ used ∈ built.uses

theorem Uses.mono (included : ∀ built ∈ smaller, built ∈ larger) (uses : Uses smaller user used) :
    Uses larger user used := by
  obtain ⟨built, member, named, usesIt⟩ := uses
  exact ⟨built, included built member, named, usesIt⟩

private theorem leads_mono (included : ∀ built ∈ smaller, built ∈ larger)
    (leads : TransGen (Uses smaller) user used) : TransGen (Uses larger) user used :=
  TransGen.mono (fun _ _ => Uses.mono included) user used leads

private theorem reaches_mono (included : ∀ built ∈ smaller, built ∈ larger)
    (reaches : ReflTransGen (Uses smaller) user used) : ReflTransGen (Uses larger) user used :=
  ReflTransGen.mono (fun _ _ => Uses.mono included) user used reaches

/-- The modules that are being built when a name is met, innermost first: each uses the one before it,
and the innermost uses the name. -/
def Chain : List Built → String → Prop
  | [], _ => True
  | built :: outer, name => name ∈ built.uses ∧ Chain outer built.name

theorem Chain.leads {chain : List Built} {other : String} (chained : Chain chain name)
    (member : other ∈ chain.map Built.name) : TransGen (Uses chain) other name := by
  induction chain generalizing name with
  | nil => cases member
  | cons built outer ih =>
    obtain ⟨usesName, chained⟩ := chained
    have last : Uses (built :: outer) built.name name :=
      ⟨built, mem_cons_self, rfl, usesName⟩
    rw [map_cons, mem_cons] at member
    rcases member with rfl | member
    · exact .single last
    · exact .tail (leads_mono (fun _ => mem_cons_of_mem built) (ih chained member)) last

end Built

namespace Context

/-- Why the use of `name` by `user` does not call for `name` in front of `user` any more: it is there,
it cannot be built, or it leads back to `user`. -/
def Settled (context : Context) (all : List Built) (done : List String) (user name : String) :
    Prop :=
  name ∈ done ∨ context.usable name = false ∨ TransGen (Built.Uses all) name user

def Ordered (context : Context) (all : List Built) : List String → List Built → Prop
  | _, [] => True
  | done, built :: rest =>
      (∀ name ∈ built.uses, context.Settled all done built.name name) ∧
        Ordered context all (done ++ [built.name]) rest

theorem Settled.mono (included : ∀ built ∈ smaller, built ∈ larger)
    (settled : context.Settled smaller done user name) : context.Settled larger done user name := by
  rcases settled with there | unusable | leads
  · exact .inl there
  · exact .inr (.inl unusable)
  · exact .inr (.inr (Built.leads_mono included leads))

theorem Ordered.mono (included : ∀ built ∈ smaller, built ∈ larger)
    (ordered : context.Ordered smaller done built) : context.Ordered larger done built := by
  induction built generalizing done with
  | nil => trivial
  | cons first rest ih =>
    exact ⟨fun name usesIt => (ordered.1 name usesIt).mono included, ih ordered.2⟩

theorem Ordered.append {all : List Built} (leftOrdered : context.Ordered all done left)
    (rightOrdered : context.Ordered all (done ++ left.map Built.name) right) :
    context.Ordered all done (left ++ right) := by
  induction left generalizing done with
  | nil => simpa using rightOrdered
  | cons first rest ih =>
    refine ⟨leftOrdered.1, ih leftOrdered.2 ?_⟩
    simpa [append_assoc] using rightOrdered

theorem Ordered.split {all : List Built} {built : Built}
    (ordered : context.Ordered all done (left ++ built :: right)) (usesIt : name ∈ built.uses) :
    context.Settled all (done ++ left.map Built.name) built.name name := by
  induction left generalizing done with
  | nil => simpa using ordered.1 name usesIt
  | cons first rest ih => simpa [append_assoc] using ih ordered.2

/-! ### The invariant -/

/-- A built module is one that can be built, and if its script requires no files then its own code is
that script. -/
def Genuine (context : Context) (built : Built) : Prop :=
  context.usable built.name = true ∧
    ∃ script, context.script? built.name = some script ∧
      (occurrences Directive.require script = [] → built.code = script)

/-- What the use of some names does inside the modules of a chain: it builds a list of modules. -/
structure ModuleRun (context : Context) (chain : List Built) (names : List String)
    (before after : Progress) (built : List Built) : Prop where
  appended : after.compiledModules = before.compiledModules ++ built.map Built.name
  distinct : (built.map Built.name).Nodup
  fresh : ∀ module_ ∈ built,
    module_.name ∉ before.compiledModules ∧ module_.name ∉ chain.map Built.name
  genuine : ∀ module_ ∈ built, context.Genuine module_
  ordered : context.Ordered (chain ++ built) before.compiledModules built
  complete : ∀ name ∈ names,
    name ∈ after.compiledModules ∨ name ∈ chain.map Built.name ∨ context.usable name = false
  reached : ∀ module_ ∈ built, ∃ name ∈ names, ReflTransGen (Built.Uses built) name module_.name

namespace ModuleRun

variable {context : Context} {chain : List Built} {before after : Progress}

theorem idle (same : after.compiledModules = before.compiledModules) (complete : ∀ name ∈ names,
      name ∈ before.compiledModules ∨ name ∈ chain.map Built.name ∨ context.usable name = false) :
    ModuleRun context chain names before after [] where
  appended := by simpa using same
  distinct := nodup_nil
  fresh := by simp
  genuine := by simp
  ordered := trivial
  complete := by
    rw [same]
    exact complete
  reached := by simp

private theorem append {first second : List String} {middle : Progress}
    (leftRun : ModuleRun context chain first before middle left)
    (rightRun : ModuleRun context chain second middle after right) :
    ModuleRun context chain (first ++ second) before after (left ++ right) where
  appended := by
    rw [rightRun.appended, leftRun.appended, map_append, append_assoc]
  distinct := by
    rw [map_append]
    refine nodup_append.mpr ⟨leftRun.distinct, rightRun.distinct, ?_⟩
    intro name inLeft other inRight same
    subst same
    obtain ⟨module_, member, rfl⟩ := mem_map.mp inRight
    apply (rightRun.fresh module_ member).1
    rw [leftRun.appended]
    exact mem_append_right _ inLeft
  fresh := by
    intro module_ member
    rcases mem_append.mp member with inLeft | inRight
    · exact leftRun.fresh module_ inLeft
    · have unseen := rightRun.fresh module_ inRight
      rw [leftRun.appended] at unseen
      exact ⟨fun seen => unseen.1 (mem_append_left _ seen), unseen.2⟩
  genuine := by
    intro module_ member
    rcases mem_append.mp member with inLeft | inRight
    · exact leftRun.genuine module_ inLeft
    · exact rightRun.genuine module_ inRight
  ordered := by
    apply Ordered.append
    · exact leftRun.ordered.mono (by grind)
    · have ordered := rightRun.ordered
      rw [leftRun.appended] at ordered
      exact ordered.mono (by grind)
  complete := by
    intro name member
    rcases mem_append.mp member with inFirst | inSecond
    · rcases leftRun.complete name inFirst with done | outer
      · rw [rightRun.appended]
        exact .inl (mem_append_left _ done)
      · exact .inr outer
    · exact rightRun.complete name inSecond
  reached := by
    intro module_ member
    rcases mem_append.mp member with inLeft | inRight
    · obtain ⟨name, named, reach⟩ := leftRun.reached module_ inLeft
      exact ⟨name, mem_append_left _ named,
        Built.reaches_mono (fun _ => mem_append_left _) reach⟩
    · obtain ⟨name, named, reach⟩ := rightRun.reached module_ inRight
      exact ⟨name, mem_append_right _ named,
        Built.reaches_mono (fun _ => mem_append_right _) reach⟩

section

variable {own : Built} {scripted last : Progress}
  (run : ModuleRun context (own :: chain) own.uses scripted last built)

include run

private theorem own_not_built : own.name ∉ built.map Built.name := by
  intro member
  obtain ⟨module_, inBuilt, named⟩ := mem_map.mp member
  apply (run.fresh module_ inBuilt).2
  rw [named]
  exact mem_cons_self

private theorem distinct_own : ((built ++ [own]).map Built.name).Nodup := by
  rw [map_append]
  refine nodup_append.mpr ⟨run.distinct, nodup_singleton _, ?_⟩
  intro name inBuilt other isOwn equal
  rw [map_singleton, mem_singleton] at isOwn
  subst isOwn
  subst equal
  exact run.own_not_built inBuilt

private theorem reached_own {module_ : Built} (member : module_ ∈ built ++ [own]) :
    ReflTransGen (Built.Uses (built ++ [own])) own.name module_.name := by
  rcases mem_append.mp member with inBuilt | isOwn
  · obtain ⟨name, usesIt, reach⟩ := run.reached module_ inBuilt
    have onward : ReflTransGen (Built.Uses (built ++ [own])) name module_.name :=
      Built.reaches_mono (fun _ => mem_append_left _) reach
    exact .head ⟨own, mem_append_right _ (mem_singleton_self _), rfl, usesIt⟩ onward
  · rw [mem_singleton.mp isOwn]

private theorem settled_own (chained : Built.Chain chain own.name) (usesIt : name ∈ own.uses) :
    context.Settled (chain ++ (built ++ [own])) last.compiledModules own.name name := by
  rcases run.complete name usesIt with done | building | unusable
  · exact .inl done
  · -- A name that is being built is the module itself or leads to it along the chain.
    rw [map_cons, mem_cons] at building
    rcases building with itself | outer
    · refine .inr (.inr (.single ⟨own, by simp, itself.symm, ?_⟩))
      rw [← itself]
      exact usesIt
    · exact .inr (.inr (Built.leads_mono (fun _ => mem_append_left _) (chained.leads outer)))
  · exact .inr (.inl unusable)

variable (same : scripted.compiledModules = before.compiledModules)

include same

theorem compiled_last : last.compiledModules = before.compiledModules ++ built.map Built.name := by
  rw [run.appended, same]

private theorem ordered_own (chained : Built.Chain chain own.name) :
    context.Ordered (chain ++ (built ++ [own])) before.compiledModules (built ++ [own]) := by
  have included : ∀ module_ ∈ own :: chain ++ built, module_ ∈ chain ++ (built ++ [own]) := by
    grind
  apply Ordered.append
  · have ordered := run.ordered
    rw [same] at ordered
    exact ordered.mono included
  · rw [← run.compiled_last same]
    exact ⟨fun name usesIt => run.settled_own chained usesIt, trivial⟩

private theorem finish (unseen : own.name ∉ before.compiledModules)
    (outside : own.name ∉ chain.map Built.name) (genuine : context.Genuine own)
    (chained : Built.Chain chain own.name) :
    ModuleRun context chain [own.name] before (last.markModule own.name) (built ++ [own]) := by
  have notYet : own.name ∉ last.compiledModules := by
    rw [run.compiled_last same, mem_append]
    exact not_or.mpr ⟨unseen, run.own_not_built⟩
  have marked : (last.markModule own.name).compiledModules =
      before.compiledModules ++ (built ++ [own]).map Built.name := by
    rw [Progress.compiledModules_markModule last own.name notYet, run.compiled_last same, map_append,
      append_assoc, map_singleton]
  refine
    { appended := marked
      distinct := run.distinct_own
      fresh := ?_
      genuine := ?_
      ordered := run.ordered_own same chained
      complete := ?_
      reached := fun module_ member => ⟨own.name, mem_singleton_self _, run.reached_own member⟩ }
  · intro module_ member
    rcases mem_append.mp member with inBuilt | isOwn
    · have unseenOther := run.fresh module_ inBuilt
      rw [same, map_cons, mem_cons, not_or] at unseenOther
      exact ⟨unseenOther.1, unseenOther.2.2⟩
    · rw [mem_singleton.mp isOwn]
      exact ⟨unseen, outside⟩
  · intro module_ member
    rcases mem_append.mp member with inBuilt | isOwn
    · exact run.genuine module_ inBuilt
    · rw [mem_singleton.mp isOwn]
      exact genuine
  · intro name member
    rw [mem_singleton.mp member, marked]
    exact .inl (by simp)

end

end ModuleRun

/-! ### Runs -/

theorem recordedRequires_modules {base : Path} {code : Text}
    (done : context.recordedRequires fuel base progress code = some (text, after, record)) :
    modules record = [] ∧ after.compiledModules = progress.compiledModules := by
  apply context.recordedRequires_induct
    (fun before after record =>
      modules record = [] ∧ after.compiledModules = before.compiledModules)
    _ _ _ _ done
  · intro progress
    exact ⟨rfl, rfl⟩
  · intro first second third left right leftKept rightKept
    rw [modules_append, leftKept.1, rightKept.1, rightKept.2]
    exact ⟨rfl, leftKept.2⟩
  · intro progress files
    exact ⟨rfl, Progress.compiledModules_foldl_markFile progress files⟩
  · intro flags progress files parts inner after kept
    rw [modules_append, kept.1, kept.2, (context.gather_quiet _ _).modules,
      Progress.compiledModules_foldl_markFile]
    refine ⟨?_, rfl⟩
    unfold writtenFiles
    split <;> rfl

private theorem recordedRequires_plain {base : Path} {code : Text}
    (plain : occurrences Directive.require code = [])
    (done : context.recordedRequires fuel base progress code = some (text, after, record)) :
    text = code := by
  have expanded : context.expandRequires fuel base progress code = some (text, after) := by
    rw [← context.withoutRecord_recordedRequires, done]
    rfl
  cases fuel with
  | zero => cases expanded
  | succ fuel =>
    unfold expandRequires at expanded
    rw [weave?_of_no_value _ _ _ plain, flatMap_source_cut] at expanded
    cases expanded
    rfl

private theorem recordedAllUses_run (context : Context) (chain : List Built)
    {use : Progress → String → Option (Recorded Text)}
    (single : ∀ name ∈ names, ∀ {progress after text record},
      use progress name = some (text, after, record) →
      text = (modules record).flatMap Built.text ∧
        ModuleRun context chain [name] progress after (modules record))
    (done : recordedAllUses use progress names = some (text, after, record)) :
    text = (modules record).flatMap Built.text ∧
      ModuleRun context chain names progress after (modules record) := by
  induction names generalizing progress text record with
  | nil =>
    cases done
    exact ⟨rfl, .idle rfl (by simp)⟩
  | cons name rest ih =>
    obtain ⟨code, next, first, others, more, used, remaining, rfl, rfl⟩ :=
      recordedAllUses_cons done
    obtain ⟨codeAt, firstRun⟩ := single name mem_cons_self used
    obtain ⟨othersAt, moreRun⟩ :=
      ih (fun other member => single other (mem_cons_of_mem name member)) remaining
    rw [modules_append, flatMap_append, codeAt, othersAt]
    exact ⟨rfl, firstRun.append moreRun⟩

private theorem recordedUse_run (builds : context.settings.buildModules = true) {chain : List Built}
    (chained : Built.Chain chain name)
    (done : context.recordedUse fuel (chain.map Built.name) progress name =
      some (text, after, record)) :
    text = (modules record).flatMap Built.text ∧
      ModuleRun context chain [name] progress after (modules record) := by
  -- With each step into a module the chain gets that module and the fuel goes down.
  induction fuel generalizing chain progress after name text record with
  | zero => cases done
  | succ fuel ih =>
    unfold recordedUse at done
    rcases recordedOne_cases done with
      ⟨rfl, rfl, quiet, _, reason⟩ |
      ⟨module_, script, own, _, _, marked, scripted, noted, dependencies, last, more, usable, unseen,
        outside, _, _, ownAt, _, found, quiet, expanded, used, rfl, rfl, rfl⟩
    · refine ⟨rfl, .idle quiet.modules ?_⟩
      intro other member
      rw [mem_singleton.mp member]
      rcases reason with unusable | compiled | building | deferred
      · exact .inr (.inr unusable)
      · exact .inl compiled
      · exact .inr (.inl building)
      · rw [builds] at deferred
        cases deferred
    · have named : own.name = name := by rw [ownAt]
      subst named
      obtain ⟨noModules, sameModules⟩ := recordedRequires_modules expanded
      have same : scripted.compiledModules = progress.compiledModules := by
        rw [sameModules, quiet.modules, Progress.compiledModules_markFile]
      have genuine : context.Genuine own :=
        ⟨usable, script, found, fun plain => recordedRequires_plain plain expanded⟩
      obtain ⟨dependenciesAt, run⟩ := context.recordedAllUses_run (own :: chain)
        (fun other usesIt => ih ⟨usesIt, chained⟩) used
      rw [modules_append, modules_append, noModules, nil_append,
        modules_built, flatMap_append, dependenciesAt]
      refine ⟨by simp, ?_⟩
      exact run.finish same unseen outside genuine chained

theorem recordedNames_run (builds : context.settings.buildModules = true) {names : List Text}
    (done : context.recordedNames progress names = some (text, after, record)) :
    text = (modules record).flatMap Built.text ∧
      ModuleRun context [] (names.map String.ofList) progress after (modules record) :=
  context.recordedAllUses_run []
    (fun _ _ {_ _ _ _} used => recordedUse_run builds trivial used) done

private theorem recordedDirectives_run (builds : context.settings.buildModules = true)
    {pieces : List (Piece (List Text))}
    (done : context.recordedDirectives progress pieces = some (text, after, record)) :
    ModuleRun context [] ((pieces.filterMap Piece.value?).flatten.map String.ofList) progress after
      (modules record) := by
  unfold recordedDirectives at done
  induction pieces generalizing progress text record with
  | nil =>
    cases done
    exact .idle rfl (by simp)
  | cons piece rest ih =>
    cases piece with
    | plain c =>
      simp only [weaveRecorded, map_eq_some_iff] at done
      obtain ⟨⟨others, last, noted⟩, reached, same⟩ := done
      cases same
      exact ih reached
    | found lexeme names =>
      simp only [weaveRecorded, bind_eq_some_iff, map_eq_some_iff] at done
      obtain ⟨⟨written, next, first⟩, used, ⟨others, last, noted⟩, reached, same⟩ := done
      cases same
      have run := (recordedNames_run builds used).2.append (ih reached)
      simpa [Piece.value?] using run

theorem useDirectives_split {final : Progress} {left right : List (Piece (List Text))} {lexeme : Text}
    {names : List Text} (done : context.useDirectives progress (left ++ .found lexeme names :: right) =
      some (text, final)) :
    ∃ before start written next record after,
      context.useDirectives progress left = some (before, start) ∧
      context.recordedNames start names = some (written, next, record) ∧
      context.useDirectives next right = some (after, final) ∧
      text = before ++ written ++ after := by
  obtain ⟨before, start, written, next, after, first, used, rest, whole⟩ := weave?_split _ done
  rw [← withoutRecord_recordedAllUses _ _ (context.withoutRecord_recordedUse _ _),
    withoutRecord, map_eq_some_iff] at used
  obtain ⟨⟨written, next, record⟩, used, same⟩ := used
  cases same
  exact ⟨before, start, written, next, record, after, first, used, rest, whole⟩

/-! ### Whole runs -/

namespace ModuleRun

variable {context : Context} {names : List String} {before after : Progress} {built : List Built}

private theorem compiledModules_eq (fresh : before.compiledModules = [])
    (run : ModuleRun context [] names before after built) :
    after.compiledModules = built.map Built.name := by
  rw [run.appended, fresh, nil_append]

private theorem built_of_used (fresh : before.compiledModules = [])
    (run : ModuleRun context [] names before after built) (uses : Built.Uses built user name)
    (usable : context.usable name = true) : name ∈ after.compiledModules := by
  obtain ⟨module_, member, named, usesIt⟩ := uses
  obtain ⟨left, right, rfl⟩ := append_of_mem member
  rcases run.ordered.split usesIt with done | unusable | leads
  · rw [run.compiledModules_eq fresh, map_append]
    rw [fresh, nil_append] at done
    exact mem_append_left _ done
  · rw [usable] at unusable
    cases unusable
  · obtain ⟨next, first, _⟩ := TransGen.head'_iff.mp leads
    obtain ⟨other, within, otherNamed, _⟩ := first
    rw [run.compiledModules_eq fresh, ← otherNamed]
    exact mem_map_of_mem within

private theorem precedes (fresh : before.compiledModules = [])
    (run : ModuleRun context [] names before after built) {user : Built} (member : user ∈ built)
    (usesIt : name ∈ user.uses) (compiled : name ∈ after.compiledModules) :
    after.compiledModules.idxOf name < after.compiledModules.idxOf user.name ∨
      TransGen (Built.Uses built) name user.name := by
  have usable : context.usable name = true := by
    rw [run.compiledModules_eq fresh] at compiled
    obtain ⟨module_, within, rfl⟩ := mem_map.mp compiled
    exact (run.genuine module_ within).1
  obtain ⟨left, right, rfl⟩ := append_of_mem member
  rcases run.ordered.split usesIt with done | unusable | leads
  · left
    rw [fresh, nil_append] at done
    have distinct := run.distinct
    rw [map_append, map_cons] at distinct
    have notBefore : user.name ∉ left.map Built.name := by
      intro earlier
      exact (nodup_append.mp distinct).2.2 _ earlier _ mem_cons_self rfl
    rw [run.compiledModules_eq fresh, map_append, map_cons,
      idxOf_append_of_mem done, idxOf_append_of_notMem notBefore]
    have bound := idxOf_lt_length_of_mem done
    omega
  · rw [usable] at unusable
    cases unusable
  · exact .inr leads

private theorem compiled_iff (fresh : before.compiledModules = [])
    (run : ModuleRun context [] names before after built) (name : String) :
    name ∈ after.compiledModules ↔
      context.usable name = true ∧
        ∃ root ∈ names, ReflTransGen (Built.Uses built) root name := by
  constructor
  · intro compiled
    rw [run.compiledModules_eq fresh] at compiled
    obtain ⟨module_, member, rfl⟩ := mem_map.mp compiled
    exact ⟨(run.genuine module_ member).1, run.reached module_ member⟩
  · rintro ⟨usable, root, named, reach⟩
    cases reach with
    | refl =>
      rcases run.complete name named with compiled | building | unusable
      · exact compiled
      · cases building
      · rw [usable] at unusable
        cases unusable
    | tail _ uses => exact run.built_of_used fresh uses usable

end ModuleRun

/-- The modules that some names lead to through modules that can be built, by their scripts. -/
inductive Reached (context : Context) (names : List String) : String → Prop
  | named {name : String} (member : name ∈ names) (usable : context.usable name = true) :
      Reached context names name
  | used {user name : String} {script : Text} (reached : Reached context names user)
      (found : context.script? user = some script)
      (uses : name ∈ (Directive.usedModules script).map String.ofList)
      (usable : context.usable name = true) : Reached context names name

theorem ModuleRun.compiled_iff_reached {before : Progress} (fresh : before.compiledModules = [])
    (run : ModuleRun context [] names before after built)
    (plain : ∀ name script, context.script? name = some script →
      occurrences Directive.require script = []) (name : String) :
    name ∈ after.compiledModules ↔ context.Reached names name := by
  have codeAt : ∀ module_ ∈ built, context.script? module_.name = some module_.code := by
    intro module_ member
    obtain ⟨_, script, found, same⟩ := run.genuine module_ member
    rw [same (plain module_.name script found)]
    exact found
  constructor
  · intro compiled
    obtain ⟨usable, root, named, reach⟩ := (run.compiled_iff fresh name).mp compiled
    clear compiled
    induction reach with
    | refl => exact .named named usable
    | @tail user used _ uses ih =>
      obtain ⟨module_, member, rfl, usesIt⟩ := uses
      exact .used (ih (run.genuine module_ member).1) (codeAt module_ member) usesIt usable
  · intro reached
    induction reached with
    | named member usable => exact (run.compiled_iff fresh _).mpr ⟨usable, _, member, .refl⟩
    | @used user used script _ found uses usable ih =>
      have builtUser := ih
      rw [run.compiledModules_eq fresh] at builtUser
      obtain ⟨module_, member, rfl⟩ := mem_map.mp builtUser
      have sameCode : module_.code = script := by
        have found' := codeAt module_ member
        rw [found] at found'
        exact (some.inj found').symm
      refine run.built_of_used fresh ⟨module_, member, rfl, ?_⟩ usable
      unfold Built.uses
      rw [sameCode]
      exact uses

/-- Modules are built without repetition and in the order of their use. The text in place of each
directive is the bodies of the modules built for it in the order in which they are noted; a module
comes after those it uses unless they lead back to it; and exactly the modules that can be built and
that the script leads to are built. -/
theorem expandUses_modules (context : Context) (progress final : Progress) (code out : Text)
    (builds : context.settings.buildModules = true) (fresh : progress.compiledModules = [])
    (expanded : context.expandUses progress code = some (out, final)) :
    ∃ record,
      context.recordedDirectives progress (Text.cut Directive.use code) =
        some (out, final, record) ∧
      final.compiledModules = (Insertion.modules record).map Built.name ∧
      final.compiledModules.Nodup ∧
      (∀ left lexeme names right,
        Text.cut Directive.use code = left ++ .found lexeme names :: right →
        ∃ before start written next noted after,
          context.useDirectives progress left = some (before, start) ∧
          context.recordedNames start names = some (written, next, noted) ∧
          context.useDirectives next right = some (after, final) ∧
          out = before ++ written ++ after ∧
          next.compiledModules =
            start.compiledModules ++ (Insertion.modules noted).map Built.name ∧
          written = (Insertion.modules noted).flatMap Built.text) ∧
      (∀ user ∈ Insertion.modules record, ∀ name ∈ user.uses, name ∈ final.compiledModules →
        final.compiledModules.idxOf name < final.compiledModules.idxOf user.name ∨
          TransGen (Built.Uses (Insertion.modules record)) name user.name) ∧
      (∀ name, name ∈ final.compiledModules ↔
        context.usable name = true ∧
          ∃ root ∈ (Directive.usedModules code).map String.ofList,
            ReflTransGen (Built.Uses (Insertion.modules record)) root name) ∧
      ((∀ name script, context.script? name = some script →
          Text.occurrences Directive.require script = []) →
        ∀ name, name ∈ final.compiledModules ↔
          context.Reached ((Directive.usedModules code).map String.ofList) name) := by
  have recorded := context.withoutRecord_recordedDirectives progress (Text.cut Directive.use code)
  unfold expandUses at expanded
  rw [expanded, Text.withoutRecord, Option.map_eq_some_iff] at recorded
  obtain ⟨⟨text, last, record⟩, recorded, same⟩ := recorded
  cases same
  have run := recordedDirectives_run builds recorded
  refine ⟨record, recorded, run.compiledModules_eq fresh, ?_, ?_, ?_, run.compiled_iff fresh,
    run.compiled_iff_reached fresh⟩
  · rw [run.compiledModules_eq fresh]
    exact run.distinct
  · intro left lexeme names right split
    rw [split] at expanded
    obtain ⟨before, start, written, next, noted, after, first, used, rest, outAt⟩ :=
      useDirectives_split expanded
    obtain ⟨writtenAt, namesRun⟩ := recordedNames_run builds used
    exact ⟨before, start, written, next, noted, after, first, used, rest, outAt,
      namesRun.appended, writtenAt⟩
  · intro user member name usesIt compiled
    exact run.precedes fresh member usesIt compiled

def mutualModules : Context where
  tree := {
    entries := [(["a.js"], .file "@lx:use B;A".toList), (["b.js"], .file "@lx:use A;B".toList)]
    home := [] }
  compiler := {
    modules := {
      root := ⟨"/"⟩
      modules := [("A", { name := "A", path := "a.js" }), ("B", { name := "B", path := "b.js" })] }
    widgets := .empty }
  settings := { side := .client }

/-- Of two modules that use each other, the one that is not named comes first, and both are built. -/
theorem expandUses_modules_mutual :
    ∃ final,
      mutualModules.expandUses {} "@lx:use A;x".toList = some ("B\nA\nx".toList, final) ∧
      final.compiledModules = ["B", "A"] ∧
      ∀ name, name ∈ final.compiledModules ↔ mutualModules.Reached ["A"] name := by
  have evaluated : (mutualModules.expandUses {} "@lx:use A;x".toList).map
      (fun answer => (answer.1, answer.2.compiledModules)) =
        some ("B\nA\nx".toList, ["B", "A"]) := by
    decide +kernel
  obtain ⟨⟨out, final⟩, expanded, same⟩ := Option.map_eq_some_iff.mp evaluated
  rw [Prod.mk.injEq] at same
  obtain ⟨rfl, compiled⟩ := same
  have plain : ∀ name script, mutualModules.script? name = some script →
      Text.occurrences Directive.require script = [] := by
    intro name script found
    by_cases first : name = "A"
    · have scriptAt : mutualModules.script? "A" = some "@lx:use B;A".toList := by decide +kernel
      rw [first, scriptAt] at found
      cases found
      decide +kernel
    by_cases second : name = "B"
    · have scriptAt : mutualModules.script? "B" = some "@lx:use A;B".toList := by decide +kernel
      rw [second, scriptAt] at found
      cases found
      decide +kernel
    · have missing : mutualModules.compiler.modules.get? name = none := by
        change List.lookup name [("A", _), ("B", _)] = none
        rw [List.lookup_cons, List.lookup_cons, beq_false_of_ne first, beq_false_of_ne second]
        rfl
      unfold script? at found
      rw [missing] at found
      cases found
  obtain ⟨record, _, _, _, _, _, _, reached⟩ :=
    expandUses_modules mutualModules {} final "@lx:use A;x".toList _ rfl rfl expanded
  have names : (Directive.usedModules "@lx:use A;x".toList).map String.ofList = ["A"] := by
    decide +kernel
  rw [names] at reached
  exact ⟨final, expanded, compiled, reached plain⟩

end Context

end PageScript
