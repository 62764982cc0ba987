import PageScript.Proofs.Compile.Standing

/-! The order in which required files are written (`expandRequires_inOrder`). -/

open List

namespace PageScript

open Text Progress

open Relation (TransGen)
open Event (written ofText groups finished marks)

variable {turns : List Turn} {trace : List Event} {progress : Progress} {files : List Path}
  {flags : InclusionFlags}

namespace Context

variable {context : Context} {start : Progress}

/-- When a directive has been dealt with, each file that it names has been brought in with a list. It
is written by then exactly if it is not dropped from the list and stands before each file of the list
that is being written. -/
def InOrder (context : Context) (start : Progress) (trace : List Event) (turns : List Turn)
    (files : List Path) : Prop :=
  ∀ file ∈ files, (context.fileCode? file).isSome = true → start.isCompiled file = false →
    ∃ pending ∈ groups trace, file ∈ pending ∧
      (file ∈ finished trace ↔ ¬ context.Dropped pending file ∧
        ∀ turn ∈ turns, file ∈ turn.later → file ∈ turn.earlier)

theorem Standing.inOrder (acyclic : context.Acyclic)
    (standing : context.Standing start turns trace progress)
    (compiled : ∀ file ∈ files.map context.tree.canonical, progress.isCompiled file = true)
    (required : ∀ turn, turns.head? = some turn → ∀ file ∈ files.map context.tree.canonical,
      context.Requires turn.file file) :
    context.InOrder start trace turns (files.map context.tree.canonical) := by
  intro file member valid fresh
  have found : ∃ pending ∈ groups trace, file ∈ pending := by
    have marked := compiled file member
    obtain ⟨path, _, rfl⟩ := mem_map.mp member
    rcases standing.known path valid marked with atStart | listed
    · rw [fresh] at atStart
      cases atStart
    · exact listed
  obtain ⟨pending, listed, within⟩ := found
  refine ⟨pending, listed, within, ?_⟩
  rw [← mem_writingOrder_iff within valid]
  constructor
  · intro ended
    obtain ⟨list, other, ordered⟩ := standing.brought file ended
    have same := standing.once list other pending listed file (mem_of_mem_writingOrder ordered) within
    refine ⟨same ▸ ordered, fun turn inside later => ?_⟩
    have inFiles : file ∈ turn.files := mem_append_right _ (mem_cons_of_mem _ later)
    exact (standing.done turn inside file inFiles).mp ended
  · rintro ⟨ordered, behind⟩
    rcases standing.settled pending listed with ended | ⟨turn, inside, same⟩
    · exact ended file ordered
    · rw [← same] at ordered
      refine (standing.done turn inside file ordered).mpr ?_
      rcases mem_append.mp ordered with before | others
      · exact before
      · rcases mem_cons.mp others with rfl | later
        · -- the file is being written, so the directive would lead back to it
          cases turns with
          | nil => cases inside
          | cons inner outer =>
            have leads := leads_of_nested standing.nested inside
            have back := required inner rfl turn.file member
            exact absurd (TransGen.tail' leads back) (acyclic turn.file)
        · exact behind turn inside later

/-- A trace leads from one standing to another, and whatever directive is passed on the way finds its
files in order. -/
structure Carries (context : Context) (start : Progress) (turns : List Turn) (before : Progress)
    (trace : List Event) (next : List Turn) (after : Progress) : Prop where
  keeps : Keeps before after
  stands : ∀ history, context.Standing start turns history before →
    context.Standing start next (history ++ trace) after
  finds : ∀ history, context.Standing start turns history before →
    ∀ left inside files right, trace = left ++ .passed inside files :: right →
      context.InOrder start (history ++ left) inside files

namespace Carries

variable {turns next last : List Turn} {before middle after : Progress}

theorem append {left right : List Event} (begun : context.Carries start turns before left next middle)
    (ended : context.Carries start next middle right last after) :
    context.Carries start turns before (left ++ right) last after where
  keeps := begun.keeps.trans ended.keeps
  stands history standing := by
    rw [← append_assoc]
    exact ended.stands _ (begun.stands history standing)
  finds history standing first inside files rest split := by
    rcases append_eq_append_cons split with ⟨more, leftIs⟩ | ⟨more, rfl, rightIs⟩
    · exact begun.finds history standing first inside files more leftIs
    · rw [← append_assoc]
      exact ended.finds _ (begun.stands history standing) more inside files rest rightIs

private theorem silent (keeps : Keeps before after)
    (step : ∀ history, context.Standing start turns history before →
      context.Standing start turns history after) :
    context.Carries start turns before [] turns after where
  keeps := keeps
  stands history standing := by
    rw [append_nil]
    exact step history standing
  finds _ _ left _ _ _ split := by cases left <;> cases split

private theorem nothing (turns : List Turn) (progress : Progress) :
    context.Carries start turns progress [] turns progress :=
  silent (.refl progress) fun _ standing => standing

private theorem event {event : Event} (other : ∀ inside files, event ≠ .passed inside files)
    (keeps : Keeps before after)
    (step : ∀ history, context.Standing start turns history before →
      context.Standing start next (history ++ [event]) after) :
    context.Carries start turns before [event] next after where
  keeps := keeps
  stands := step
  finds _ _ _ inside files _ split :=
    absurd (singleton_eq_append_cons split).2 (other inside files)

theorem passed {inside : List Turn} (finds : ∀ history, context.Standing start turns history before →
      context.InOrder start history inside files) :
    context.Carries start turns before [.passed inside files] turns before where
  keeps := .refl before
  stands history standing :=
    standing.congr ((Event.groups_append _ _).trans (append_nil _))
      ((Event.finished_append _ _).trans (append_nil _))
  finds history standing left others named right split := by
    obtain ⟨rfl, same⟩ := singleton_eq_append_cons split
    cases same
    rw [append_nil]
    exact finds history standing

theorem congr {other : List Event} (carries : context.Carries start turns before trace next after)
    (same : marks other = marks trace) :
    context.Carries start turns before other next after where
  keeps := carries.keeps
  stands history standing := by
    have whole : marks (history ++ other) = marks (history ++ trace) := by
      rw [Event.marks_append, same, Event.marks_append]
    exact (carries.stands history standing).congr (Event.groups_congr whole)
      (Event.finished_congr whole)
  finds history standing left inside files right split := by
    rw [split, Event.marks_append] at same
    obtain ⟨first, rest, rfl, leftIs⟩ := Event.marks_eq_append_cons same.symm
    have part : marks (history ++ left) = marks (history ++ first) := by
      rw [Event.marks_append, Event.marks_append, leftIs]
    have found := carries.finds history standing first inside files rest rfl
    unfold InOrder at found ⊢
    rw [Event.groups_congr part, Event.finished_congr part]
    exact found

private theorem text (chars : Text) (turns : List Turn) (progress : Progress) :
    context.Carries start turns progress (ofText chars) turns progress := by
  have silent : marks (ofText chars) = marks [] := Event.marks_ofText chars
  exact (nothing turns progress).congr silent

end Carries

def Owned (context : Context) (turns : List Turn) (base : Path) (code : Text) : Prop :=
  ∀ turn, turns.head? = some turn →
    context.fileCode? turn.file = some code ∧ base = turn.file.parent?.getD ⟨""⟩

def Orderly (context : Context) (start : Progress) (expand : Tracer) : Prop :=
  ∀ {turns base progress code trace after}, context.Owned turns base code →
    Directive.Unforced code → expand turns base progress code = some (trace, after) →
    context.Carries start turns progress trace turns after

private theorem tracedAll_carries (unforced : context.Unforced) {expand : Tracer}
    (orderly : context.Orderly start expand) {earlier : List Path} {after : Progress}
    {inclusions : List Inclusion}
    (known : ∀ inclusion ∈ inclusions, context.fileCode? inclusion.path = some inclusion.code)
    (done : tracedAll expand turns earlier progress inclusions = some (trace, after)) :
    context.Carries start (resume earlier (inclusions.map (·.path)) turns) progress trace turns
      after := by
  induction inclusions generalizing earlier progress trace with
  | nil =>
    cases done
    exact .nothing turns _
  | cons inclusion rest ih =>
    obtain ⟨own, next, others, expanded, remaining, rfl⟩ := tracedAll_cons done
    obtain ⟨first, later⟩ := forall_mem_cons.mp known
    have owned : context.Owned (⟨earlier, inclusion.path, rest.map (·.path)⟩ :: turns)
        (inclusion.path.parent?.getD ⟨""⟩) inclusion.code := by
      intro turn same
      cases same
      exact ⟨first, rfl⟩
    have inner := orderly owned (unforced.files _ _ first) expanded
    have ended : context.Carries start (⟨earlier, inclusion.path, rest.map (·.path)⟩ :: turns) next
        [.ended inclusion.path (written own)]
        (resume (earlier ++ [inclusion.path]) (rest.map (·.path)) turns) next :=
      .event (fun _ _ same => nomatch same) (.refl next) fun _ standing => standing.advance _
    have between : marks (if rest.isEmpty then [] else [.wrote '\n']) = marks [] := by
      cases rest.isEmpty <;> rfl
    have following := ((Carries.nothing _ next).congr between).append (ih later remaining)
    rw [append_assoc, cons_append]
    exact inner.append (ended.append following)

private theorem carries_left {marked : List Path} (lexeme : Text)
    (within : ∀ file ∈ marked, file ∈ files.map context.tree.canonical)
    (missing : ∀ file ∈ files.map context.tree.canonical, context.fileCode? file = none) :
    context.Carries start turns progress
      (ofText lexeme ++ [.passed turns (files.map context.tree.canonical)]) turns
      (marked.foldl markFile progress) := by
  have canonical : ∀ file ∈ marked, ∃ path, file = context.tree.canonical path := by
    intro file member
    obtain ⟨path, _, rfl⟩ := mem_map.mp (within file member)
    exact ⟨path, rfl⟩
  have marking : context.Carries start turns progress [] turns
      (marked.foldl markFile progress) :=
    .silent (progress.foldl_markFile_keeps marked) fun _ standing =>
      standing.markMissing canonical fun file member => missing file (within file member)
  have passed : context.Carries start turns (marked.foldl markFile progress)
      [.passed turns (files.map context.tree.canonical)] turns
      (marked.foldl markFile progress) := by
    refine .passed fun _ _ file member valid => ?_
    rw [missing file member] at valid
    cases valid
  exact (Carries.text lexeme turns progress).append (marking.append passed)

private theorem carries_opened (free : flags.force = false)
    (required : ∀ turn, turns.head? = some turn → ∀ file ∈ files.map context.tree.canonical,
      context.Requires turn.file file) :
    context.Carries start turns progress [.opened (context.pendingFiles flags progress files)]
      (resume [] (context.writingOrder (context.pendingFiles flags progress files)) turns)
      (context.gather progress (context.pendingFiles flags progress files)).2 := by
  have quiet := context.gather_quiet progress (context.pendingFiles flags progress files)
  have named : ∀ file ∈ context.pendingFiles flags progress files,
      file ∈ files.map context.tree.canonical := fun _ => mem_of_mem_filter
  refine .event (fun _ _ same => nomatch same)
    ((progress.foldl_markFile_keeps _).trans quiet.keeps) fun _ standing => ?_
  refine standing.bring (fun _ => isCompiled_of_mem_pendingFiles free) ?_ quiet ?_
  · intro file member
    obtain ⟨path, _, rfl⟩ := mem_map.mp (named file member)
    exact ⟨path, rfl⟩
  · intro turn head file member
    exact required turn head file (named file member)

private theorem isCompiled_gather {file : Path} (named : file ∈ files.map context.tree.canonical) :
    (context.gather progress (context.pendingFiles flags progress files)).2.isCompiled file =
      true := by
  rw [(context.gather_quiet progress _).isCompiled]
  by_cases old : progress.isCompiled file = true
  · exact progress.foldl_markFile_keeps _ file old
  · apply progress.isCompiled_foldl_markFile
    refine mem_filter.mpr ⟨named, ?_⟩
    rw [Bool.eq_false_iff.mpr old, Bool.not_false, Bool.or_true]

private theorem tracedRequire_carries (unforced : context.Unforced) (acyclic : context.Acyclic)
    {expand : Tracer} (orderly : context.Orderly start expand) {base : Path} {after : Progress}
    {lexeme target : Text} (free : flags.force = false)
    (required : ∀ files, context.targetFiles? flags base target = some files →
      ∀ turn, turns.head? = some turn → ∀ file ∈ files.map context.tree.canonical,
        context.Requires turn.file file)
    (done : context.tracedRequire expand turns flags base progress lexeme target =
      some (trace, after)) : context.Carries start turns progress trace turns after := by
  rcases tracedRequire_cases done with
    ⟨files, marked, rfl, rfl, within, missing⟩ | ⟨files, inner, found, expanded, rfl⟩
  · exact carries_left lexeme within missing
  · have members := tracedAll_carries unforced orderly
      (fun inclusion member => (context.gather_mem _ _ member).2) expanded
    rw [map_path_gather] at members
    have compiled : ∀ file ∈ files.map context.tree.canonical, after.isCompiled file = true :=
      fun file named => members.keeps file (isCompiled_gather named)
    have passed : context.Carries start turns after
        [.passed turns (files.map context.tree.canonical)] turns after :=
      .passed fun _ standing => standing.inOrder acyclic compiled (required files found)
    have brought := members.congr (marks_framed flags inner)
    exact ((carries_opened free (required files found)).append brought).append passed

private theorem tracedRequires_orderly (unforced : context.Unforced) (acyclic : context.Acyclic)
    (start : Progress) (fuel : Nat) : context.Orderly start (context.tracedRequires fuel) := by
  induction fuel with
  | zero =>
    intro turns base progress code trace after _ _ done
    cases done
  | succ fuel ih =>
    intro turns base progress code trace after owned gentle done
    refine weaveTraced_induct
      (fun before trace after => context.Carries start turns before trace turns after)
      (.nothing turns) (fun progress c => .text [c] turns progress)
      (fun begun ended => begun.append ended) ?_ done
    intro lexeme directive piece progress trace next required
    have member : directive ∈ occurrences Directive.require code :=
      mem_filterMap.mpr ⟨_, piece, rfl⟩
    have free : (context.effectiveFlags directive).force = false := by
      unfold effectiveFlags InclusionFlags.union
      rw [gentle directive member, unforced.flags, Bool.or_false]
    refine tracedRequire_carries unforced acyclic ih free ?_ required
    intro files found turn head file named
    obtain ⟨known, rfl⟩ := owned turn head
    exact requires_of_directive known member found named

/-- In a script whose directives are not forced, where no file leads back to itself: what is written
is the trace of the expansion, and the code of a file that has ended stands before the place where it
ended. When a directive has been dealt with, a file that it names, can be included and was not compiled
at the start has been brought in with a list. It is written by then exactly if it is not dropped from
the list for a class that another file declares, and comes before each file of the list that is still
being written. -/
theorem expandRequires_inOrder (unforced : context.Unforced) (acyclic : context.Acyclic)
    (base : Path) (start : Progress) {code : Text} (gentle : Directive.Unforced code) :
    ∃ trace after,
      context.tracedRequires context.requireFuel [] base start code = some (trace, after) ∧
      context.expandRequires context.requireFuel base start code = some (written trace, after) ∧
      (∀ left file part right, trace = left ++ .ended file part :: right →
        context.Inlined file part ∧ (part <:+ written left ∨ Text.allBlank part = true)) ∧
      ∀ left turns files right, trace = left ++ .passed turns files :: right →
        ∀ file ∈ files, (context.fileCode? file).isSome = true → start.isCompiled file = false →
          ∃ pending ∈ groups left, file ∈ pending ∧
            (file ∈ finished left ↔ ¬ context.Dropped pending file ∧
              ∀ turn ∈ turns, file ∈ turn.later → file ∈ turn.earlier) := by
  obtain ⟨text, after, expanded⟩ := requireFuel_ends unforced base start code
  rw [← context.written_tracedRequires _ []] at expanded
  obtain ⟨⟨trace, last⟩, traced, same⟩ := Option.map_eq_some_iff.mp expanded
  cases same
  have owned : context.Owned [] base code := fun _ head => nomatch head
  have carries := tracedRequires_orderly unforced acyclic start _ owned gentle traced
  refine ⟨trace, after, traced, ?_, tracedRequires_placed traced, ?_⟩
  · rw [← context.written_tracedRequires _ [], traced]
    rfl
  · exact carries.finds [] (context.standing_start start)

theorem targetFiles?_of_isAbsolute (context : Context) (flags : InclusionFlags) (base other : Path)
    {target : Text} (single : target.head? ≠ some '{')
    (absolute : Path.isAbsolute ⟨String.ofList (Script.unquote target)⟩ = true) :
    context.targetFiles? flags base target = context.targetFiles? flags other target := by
  have alone : ¬ (target.head? = some '{' ∧ target.getLast? = some '}') := fun list => single list.1
  simp only [targetFiles?, if_neg alone, Path.join_of_isAbsolute absolute]

def behindhand : Context where
  tree := {
    entries := [(["a.js"], .file "@lx:require -U /b;\naa();\n".toList),
      (["b.js"], .file "bb();\n".toList)]
    home := [] }
  compiler := { modules := { root := ⟨"/"⟩, modules := [] }, widgets := .empty }
  settings := { side := .client }

private theorem behindhand_unforced : behindhand.Unforced := by
  refine ⟨rfl, fun file code known => ?_⟩
  exact (mem_texts_of_fileCode? (by decide +kernel) known).2

theorem behindhand_requires {file required : Path} (requires : behindhand.Requires file required) :
    required = ⟨"/b.js"⟩ := by
  have each : ∀ code ∈ behindhand.texts,
      ∀ directive ∈ occurrences Directive.require code,
        (trim directive.target).head? ≠ some '{' ∧
        Path.isAbsolute ⟨String.ofList (Script.unquote (trim directive.target))⟩ = true ∧
        ∀ named ∈ ((behindhand.targetFiles? (behindhand.effectiveFlags directive) ⟨"/"⟩
          (trim directive.target)).getD []).map behindhand.tree.canonical,
            named = ⟨"/b.js"⟩ := by
    decide +kernel
  unfold Requires requiredFiles at requires
  cases known : behindhand.fileCode? file with
  | none =>
    rw [known] at requires
    cases requires
  | some code =>
    rw [known] at requires
    obtain ⟨directive, member, named⟩ := mem_flatMap.mp requires
    obtain ⟨single, absolute, only⟩ :=
      each code (mem_texts_of_fileCode? (by decide +kernel) known).1 directive member
    rw [behindhand.targetFiles?_of_isAbsolute _ _ ⟨"/"⟩ single absolute] at named
    exact only required named

private theorem behindhand_acyclic : behindhand.Acyclic := by
  intro file cycle
  obtain ⟨_, _, last⟩ := TransGen.tail'_iff.mp cycle
  obtain ⟨_, first, _⟩ := TransGen.head'_iff.mp cycle
  rw [behindhand_requires last] at first
  have none : behindhand.requiredFiles ⟨"/b.js"⟩ = [] := by decide +kernel
  unfold Requires at first
  rw [none] at first
  cases first

def behindhandScript : Text := "@lx:require -U \x7ba, b\x7d;".toList

def behindhandBefore : List Event :=
  [.opened [⟨"/a.js"⟩, ⟨"/b.js"⟩], .opened []]

def behindhandAfter : List Event :=
  ofText "\naa();\n".toList ++ .ended ⟨"/a.js"⟩ "\naa();\n".toList ::
    ofText "\nbb();\n".toList ++
      [.ended ⟨"/b.js"⟩ "bb();\n".toList, .passed [] [⟨"/a.js"⟩, ⟨"/b.js"⟩]]

private theorem behindhand_trace :
    (behindhand.tracedRequires behindhand.requireFuel [] ⟨"/"⟩ {} behindhandScript).map (·.1) =
      some (behindhandBefore ++ .passed [⟨[], ⟨"/a.js"⟩, [⟨"/b.js"⟩]⟩] [⟨"/b.js"⟩] ::
        behindhandAfter) := by
  have pieces : cut Directive.require behindhandScript =
      [.found behindhandScript ⟨some "-U".toList, "\x7ba, b\x7d".toList⟩] := by
    rfl
  have found : behindhand.targetFiles?
      (behindhand.effectiveFlags ⟨some "-U".toList, "\x7ba, b\x7d".toList⟩) ⟨"/"⟩
        (trim "\x7ba, b\x7d".toList) = some [⟨"/a.js"⟩, ⟨"/b.js"⟩] := by
    decide +kernel
  have pending : behindhand.pendingFiles
      (behindhand.effectiveFlags ⟨some "-U".toList, "\x7ba, b\x7d".toList⟩) {}
        [⟨"/a.js"⟩, ⟨"/b.js"⟩] = [⟨"/a.js"⟩, ⟨"/b.js"⟩] := by
    decide +kernel
  rw [requireFuel, tracedRequires, pieces]
  unfold weaveTraced tracedRequire
  dsimp only
  rw [found]
  dsimp only
  rw [pending]
  unfold gather Inclusion.ordered Inclusion.emissionOrder
  dsimp only
  -- sorting does not evaluate, but the files are in order already
  rw [mergeSort_of_pairwise (by decide +kernel)]
  decide +kernel

/-- The directive that requires the second file is passed before that file is written. -/
theorem expandRequires_inOrder_behindhand :
    behindhand.Unforced ∧ behindhand.Acyclic ∧ ∃ trace after,
      behindhand.expandRequires behindhand.requireFuel ⟨"/"⟩ {} behindhandScript =
        some (written trace, after) ∧
      trace = behindhandBefore ++ .passed [⟨[], ⟨"/a.js"⟩, [⟨"/b.js"⟩]⟩] [⟨"/b.js"⟩] ::
        behindhandAfter ∧
      (∃ pending ∈ groups behindhandBefore, ⟨"/b.js"⟩ ∈ pending) ∧
      ⟨"/b.js"⟩ ∉ finished behindhandBefore ∧ ⟨"/b.js"⟩ ∈ finished behindhandAfter := by
  have gentle : Directive.Unforced behindhandScript := by decide +kernel
  obtain ⟨trace, after, traced, expanded, _, finds⟩ :=
    expandRequires_inOrder behindhand_unforced behindhand_acyclic ⟨"/"⟩ {} gentle
  have computed := behindhand_trace
  rw [traced, Option.map_some, Option.some.injEq] at computed
  obtain ⟨pending, listed, within, inOrder⟩ := finds _ _ _ _ computed ⟨"/b.js"⟩
    List.mem_cons_self (by decide +kernel) (by decide +kernel)
  refine ⟨behindhand_unforced, behindhand_acyclic, trace, after, expanded, computed,
    ⟨pending, listed, within⟩, ?_, by decide⟩
  intro ended
  have behind := (inOrder.mp ended).2 _ List.mem_cons_self List.mem_cons_self
  cases behind

end Context

end PageScript
