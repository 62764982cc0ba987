import PageScript.Proofs.Compile.Termination
import PageScript.Proofs.Text.Lines

/-! Traced expansions: what is written, brought in, ended and dealt with, in order. -/

open List

namespace PageScript

open Text

variable {expand : Expander} {progress after : Progress} {context : Context}
  {inclusions : List Inclusion}

/-- Where a file that is being written stands among those brought in with it. -/
structure Turn where
  earlier : List Path
  file : Path
  later : List Path
  deriving DecidableEq

namespace Turn

def files (turn : Turn) : List Path :=
  turn.earlier ++ turn.file :: turn.later

end Turn

inductive Event where
  | wrote (c : Char)
  | opened (pending : List Path)
  /-- The code of a file is written, with all that it requires. -/
  | ended (file : Path) (code : Text)
  /-- A directive that names files is dealt with. The files being written are given from the inside
  out, so it is a directive of the first of them. -/
  | passed (turns : List Turn) (files : List Path)
  deriving DecidableEq

variable {left right trace : List Event} {turns : List Turn}

namespace Event

def char? : Event → Option Char
  | .wrote c => some c
  | _ => none

def pending? : Event → Option (List Path)
  | .opened pending => some pending
  | _ => none

def file? : Event → Option Path
  | .ended file _ => some file
  | _ => none

def isMark : Event → Bool
  | .wrote _ => false
  | _ => true

def ofText (text : Text) : List Event :=
  text.map .wrote

def written (trace : List Event) : Text :=
  trace.filterMap char?

def groups (trace : List Event) : List (List Path) :=
  trace.filterMap pending?

def finished (trace : List Event) : List Path :=
  trace.filterMap file?

def marks (trace : List Event) : List Event :=
  trace.filter isMark

@[simp] theorem written_append (left right : List Event) :
    written (left ++ right) = written left ++ written right :=
  filterMap_append

@[simp] theorem groups_append (left right : List Event) :
    groups (left ++ right) = groups left ++ groups right :=
  filterMap_append

@[simp] theorem finished_append (left right : List Event) :
    finished (left ++ right) = finished left ++ finished right :=
  filterMap_append

@[simp] theorem marks_append (left right : List Event) :
    marks (left ++ right) = marks left ++ marks right :=
  filter_append _ _

@[simp] theorem written_ofText (text : Text) : written (ofText text) = text := by
  induction text with
  | nil => rfl
  | cons c rest ih => exact congrArg (c :: ·) ih

@[simp] theorem marks_ofText (text : Text) : marks (ofText text) = [] := by
  induction text with
  | nil => rfl
  | cons c rest ih => exact ih

@[simp] theorem groups_opened (trace : List Event) (pending : List Path) :
    groups (trace ++ [.opened pending]) = groups trace ++ [pending] :=
  groups_append _ _

@[simp] theorem finished_opened (trace : List Event) (pending : List Path) :
    finished (trace ++ [.opened pending]) = finished trace :=
  (finished_append _ _).trans (append_nil _)

@[simp] theorem groups_ended (trace : List Event) (file : Path) (code : Text) :
    groups (trace ++ [.ended file code]) = groups trace :=
  (groups_append _ _).trans (append_nil _)

@[simp] theorem finished_ended (trace : List Event) (file : Path) (code : Text) :
    finished (trace ++ [.ended file code]) = finished trace ++ [file] :=
  finished_append _ _

private theorem written_marks (trace : List Event) : written (marks trace) = [] := by
  induction trace with
  | nil => rfl
  | cons event rest ih => cases event <;> exact ih

private theorem groups_marks (trace : List Event) : groups (marks trace) = groups trace := by
  induction trace with
  | nil => rfl
  | cons event rest ih =>
    cases event with
    | opened pending => exact congrArg (pending :: ·) ih
    | wrote | ended | passed => exact ih

private theorem finished_marks (trace : List Event) : finished (marks trace) = finished trace := by
  induction trace with
  | nil => rfl
  | cons event rest ih =>
    cases event with
    | ended file code => exact congrArg (file :: ·) ih
    | wrote | opened | passed => exact ih

theorem groups_congr (same : marks left = marks right) : groups left = groups right := by
  rw [← groups_marks, same, groups_marks]

theorem finished_congr (same : marks left = marks right) : finished left = finished right := by
  rw [← finished_marks, same, finished_marks]

private theorem marks_marks (trace : List Event) : marks (marks trace) = marks trace := by
  unfold marks
  rw [filter_filter]
  simp only [Bool.and_self]

theorem marks_eq_append_cons {event : Event} (split : marks trace = left ++ event :: right) :
    ∃ before after, trace = before ++ event :: after ∧ marks before = left := by
  obtain ⟨first, second, rfl, leftIs, rest⟩ := filter_eq_append_iff.mp split
  obtain ⟨idle, more, rfl, silent, _, _⟩ := filter_eq_cons_iff.mp rest
  refine ⟨first ++ idle, more, (append_assoc ..).symm, ?_⟩
  have nothing : marks idle = [] := by
    rw [marks, filter_eq_nil_iff]
    exact silent
  rw [marks_append, nothing, append_nil]
  exact leftIs

end Event

/-! ### Traced walks -/

/-- A walk over the pieces of a text that lists what happens. -/
def Text.weaveTraced {α σ : Type} (step : σ → Text → α → Option (List Event × σ)) :
    σ → List (Piece α) → Option (List Event × σ)
  | state, [] => some ([], state)
  | state, .plain c :: rest =>
      (weaveTraced step state rest).map fun (trace, final) => (.wrote c :: trace, final)
  | state, .found lexeme value :: rest =>
      (step state lexeme value).bind fun (first, next) =>
        (weaveTraced step next rest).map fun (trace, final) => (first ++ trace, final)

theorem Text.weaveTraced_induct {α σ : Type} {step : σ → Text → α → Option (List Event × σ)}
    (holds : σ → List Event → σ → Prop) (none : ∀ state, holds state [] state)
    (char : ∀ state c, holds state [.wrote c] state)
    (append : ∀ {first second third left right}, holds first left second →
      holds second right third → holds first (left ++ right) third) {pieces : List (Piece α)}
    (each : ∀ lexeme value, .found lexeme value ∈ pieces → ∀ state trace next,
      step state lexeme value = some (trace, next) → holds state trace next) {state final : σ}
    (woven : weaveTraced step state pieces = some (trace, final)) : holds state trace final := by
  induction pieces generalizing state trace with
  | nil =>
    cases woven
    exact none _
  | cons piece rest ih =>
    have later := fun {state trace} => @ih trace
      (fun lexeme value member => each lexeme value (mem_cons_of_mem _ member)) state
    cases piece with
    | plain c =>
      obtain ⟨⟨others, last⟩, walked, same⟩ := Option.map_eq_some_iff.mp woven
      cases same
      exact append (char state c) (later walked)
    | found lexeme value =>
      obtain ⟨⟨first, next⟩, stepped, woven⟩ := Option.bind_eq_some_iff.mp woven
      obtain ⟨⟨others, last⟩, walked, same⟩ := Option.map_eq_some_iff.mp woven
      cases same
      exact append (each lexeme value mem_cons_self state first next stepped) (later walked)

/-! ### Traced expansions -/

/-- Expands a script inside the files that are being written, and lists what happens. -/
abbrev Tracer := List Turn → Path → Progress → Text → Option (List Event × Progress)

namespace Context

open Event (written ofText groups finished marks)

def tracedAll (expand : Tracer) (turns : List Turn) :
    List Path → Progress → List Inclusion → Option (List Event × Progress)
  | _, progress, [] => some ([], progress)
  | earlier, progress, inclusion :: rest => do
      let turn := { earlier, file := inclusion.path, later := rest.map (·.path) }
      let (own, progress) ← expand (turn :: turns) (inclusion.path.parent?.getD ⟨""⟩) progress
        inclusion.code
      let (others, progress) ← tracedAll expand turns (earlier ++ [inclusion.path]) progress rest
      let between := if rest.isEmpty then [] else [.wrote '\n']
      return (own ++ .ended inclusion.path (written own) :: between ++ others, progress)

def framed (flags : InclusionFlags) (trace : List Event) : List Event :=
  if allBlank (written trace) then marks trace
  else if flags.unwrapped then trace
  else ofText "(function()\x7b\n".toList ++ trace ++ ofText "\n\x7d)();".toList

def tracedRequire (context : Context) (expand : Tracer) (turns : List Turn) (flags : InclusionFlags)
    (base : Path) (progress : Progress) (lexeme target : Text) :
    Option (List Event × Progress) :=
  match context.targetFiles? flags base target with
  | none => some (ofText lexeme ++ [.passed turns []], progress)
  | some files =>
      let named := files.map context.tree.canonical
      let single := files.length = 1 ∧ target.head? ≠ some '{'
      let pending := context.pendingFiles flags progress files
      let unreadable := pending.any fun file => (context.tree.read file).toOption.isNone
      if single ∧ unreadable then
        some (ofText lexeme ++ [.passed turns named], pending.foldl Progress.markFile progress)
      else do
        let (inclusions, progress) := context.gather progress pending
        let (trace, progress) ← tracedAll expand turns [] progress inclusions
        return (.opened pending :: framed flags trace ++ [.passed turns named], progress)

def tracedRequires (context : Context) : Nat → Tracer
  | 0, _, _, _, _ => none
  | fuel + 1, turns, base, progress, code =>
      weaveTraced
        (fun progress lexeme (directive : Directive.Require) =>
          context.tracedRequire (context.tracedRequires fuel) turns (context.effectiveFlags directive)
            base progress lexeme (trim directive.target))
        progress (cut Directive.require code)

/-! ### The text of a trace -/

def readOff (answer : Option (List Event × Progress)) : Option (Text × Progress) :=
  answer.map fun (trace, progress) => (written trace, progress)

theorem readOff_weaveTraced {traced : Progress → Text → Directive.Require → Option (List Event × Progress)}
    {step : Progress → Text → Directive.Require → Option (Text × Progress)}
    (same : ∀ progress lexeme directive,
      readOff (traced progress lexeme directive) = step progress lexeme directive)
    (progress : Progress) (pieces : List (Piece Directive.Require)) :
    readOff (weaveTraced traced progress pieces) = weave? step progress pieces := by
  induction pieces generalizing progress with
  | nil => rfl
  | cons piece rest ih =>
    cases piece with
    | plain c =>
      rw [weave?_plain, ← ih progress]
      change readOff (Option.map _ _) = _
      cases weaveTraced traced progress rest <;> rfl
    | found lexeme directive =>
      rw [weave?_found, ← same]
      change readOff (Option.bind _ _) = _
      cases traced progress lexeme directive with
      | none => rfl
      | some first =>
        obtain ⟨trace, next⟩ := first
        change readOff (Option.map _ _) = Option.map _ (weave? step next rest)
        rw [← ih next]
        cases weaveTraced traced next rest with
        | none => rfl
        | some others =>
          change some (written (trace ++ others.1), others.2) = _
          rw [Event.written_append]
          rfl

private theorem isEmpty_expandAll {parts : List Text}
    (done : expandAll expand progress inclusions = some (parts, after)) :
    parts.isEmpty = inclusions.isEmpty := by
  cases inclusions with
  | nil =>
    cases done
    rfl
  | cons inclusion rest =>
    simp only [expandAll, Option.bind_eq_bind, Option.bind_eq_some_iff] at done
    obtain ⟨_, _, _, _, same⟩ := done
    cases same
    rfl

theorem join_cons (sep part : Text) (rest : List Text) :
    join sep (part :: rest) =
      part ++ (if rest.isEmpty then [] else sep) ++ join sep rest := by
  cases rest with
  | nil => simp [join]
  | cons next more => rfl

private theorem readOff_tracedAll {traced : Tracer} (same : ∀ turns base progress code,
      readOff (traced turns base progress code) = expand base progress code) (turns : List Turn)
    (earlier : List Path) (progress : Progress) (inclusions : List Inclusion) :
    readOff (tracedAll traced turns earlier progress inclusions) =
      (expandAll expand progress inclusions).map fun (parts, after) =>
        (join ['\n'] parts, after) := by
  induction inclusions generalizing earlier progress with
  | nil => rfl
  | cons inclusion rest ih =>
    let turn : Turn := ⟨earlier, inclusion.path, rest.map (·.path)⟩
    simp only [tracedAll, expandAll, ← same (turn :: turns)]
    cases traced (turn :: turns) (inclusion.path.parent?.getD ⟨""⟩) progress inclusion.code with
    | none => rfl
    | some first =>
      obtain ⟨own, next⟩ := first
      have others := ih (earlier ++ [inclusion.path]) next
      simp only [Option.bind_eq_bind, Option.bind_some, readOff, Option.map_some] at others ⊢
      cases remaining : expandAll expand next rest with
      | none =>
        rw [remaining, Option.map_none, Option.map_eq_none_iff] at others
        rw [others]
        rfl
      | some texts =>
        obtain ⟨parts, after⟩ := texts
        rw [remaining, Option.map_some, Option.map_eq_some_iff] at others
        obtain ⟨⟨trace, last⟩, found, read⟩ := others
        obtain ⟨joined, rfl⟩ := Prod.mk.inj read
        have between : written (if rest.isEmpty then [] else [.wrote '\n']) =
            if parts.isEmpty then [] else ['\n'] := by
          rw [isEmpty_expandAll remaining]
          cases rest.isEmpty <;> rfl
        have whole : written (own ++ .ended inclusion.path (written own) ::
            (if rest.isEmpty then [] else [.wrote '\n']) ++ trace) =
              join ['\n'] (written own :: parts) := by
          rw [join_cons, ← joined, ← between, append_assoc, Event.written_append,
            cons_append]
          change _ ++ written (_ ++ _) = _
          rw [Event.written_append, append_assoc]
        rw [found, Option.bind_some, Option.bind_some]
        exact congrArg (fun text => some (text, last)) whole

private theorem written_framed (flags : InclusionFlags) {parts : List Text}
    (joined : written trace = join ['\n'] parts) :
    written (framed flags trace) = assembleParts flags parts := by
  unfold framed assembleParts
  dsimp only
  rw [joined]
  split
  · exact Event.written_marks trace
  · split
    · exact joined
    · rw [Event.written_append, Event.written_append, Event.written_ofText, Event.written_ofText,
        joined]
      rfl

theorem readOff_tracedRequire (context : Context) {traced : Tracer} (same : ∀ turns base progress code,
      readOff (traced turns base progress code) = expand base progress code) (turns : List Turn)
    (flags : InclusionFlags) (base : Path) (progress : Progress) (lexeme target : Text) :
    readOff (context.tracedRequire traced turns flags base progress lexeme target) =
      (context.require expand flags base progress target).map fun (written, after) =>
        (written.getD lexeme, after) := by
  have left (files : List Path) : written (ofText lexeme ++ [.passed turns files]) = lexeme := by
    rw [Event.written_append, Event.written_ofText]
    exact append_nil _
  unfold tracedRequire require
  cases context.targetFiles? flags base target with
  | none => exact congrArg (fun text => some (text, progress)) (left [])
  | some files =>
    dsimp only
    split
    · exact congrArg (fun text => some (text, _)) (left _)
    · have all := readOff_tracedAll same turns []
        (context.gather progress (context.pendingFiles flags progress files)).2
        (context.gather progress (context.pendingFiles flags progress files)).1
      cases expanded : expandAll expand
          (context.gather progress (context.pendingFiles flags progress files)).2
          (context.gather progress (context.pendingFiles flags progress files)).1 with
      | none =>
        rw [expanded, Option.map_none, readOff, Option.map_eq_none_iff] at all
        rw [all]
        rfl
      | some answer =>
        obtain ⟨parts, after⟩ := answer
        rw [expanded, Option.map_some, readOff, Option.map_eq_some_iff] at all
        obtain ⟨⟨trace, last⟩, found, read⟩ := all
        obtain ⟨joined, rfl⟩ := Prod.mk.inj read
        rw [found]
        have whole : written (.opened (context.pendingFiles flags progress files) ::
            framed flags trace ++ [.passed turns (files.map context.tree.canonical)]) =
              assembleParts flags parts := by
          rw [Event.written_append, ← written_framed flags joined]
          exact append_nil _
        exact congrArg (fun text => some (text, last)) whole

theorem written_tracedRequires (context : Context) (fuel : Nat) (turns : List Turn) (base : Path)
    (progress : Progress) (code : Text) :
    readOff (context.tracedRequires fuel turns base progress code) =
      context.expandRequires fuel base progress code := by
  induction fuel generalizing turns base progress code with
  | zero => rfl
  | succ fuel ih =>
    apply readOff_weaveTraced
    intro progress lexeme directive
    rw [context.readOff_tracedRequire ih]
    unfold effectiveFlags
    dsimp only
    cases context.require _ _ base progress (trim directive.target) <;> rfl

/-! ### What a trace consists of -/

theorem tracedAll_cons {expand : Tracer} {earlier : List Path} {inclusion : Inclusion}
    {rest : List Inclusion}
    (done : tracedAll expand turns earlier progress (inclusion :: rest) = some (trace, after)) :
    ∃ own next others,
      expand (⟨earlier, inclusion.path, rest.map (·.path)⟩ :: turns)
        (inclusion.path.parent?.getD ⟨""⟩) progress inclusion.code = some (own, next) ∧
      tracedAll expand turns (earlier ++ [inclusion.path]) next rest = some (others, after) ∧
      trace = own ++ .ended inclusion.path (written own) ::
        (if rest.isEmpty then [] else [.wrote '\n']) ++ others := by
  simp only [tracedAll, Option.bind_eq_bind, Option.bind_eq_some_iff] at done
  obtain ⟨⟨own, next⟩, expanded, ⟨others, last⟩, remaining, same⟩ := done
  cases same
  exact ⟨own, next, others, expanded, remaining, rfl⟩

/-- A directive is left as it is if it names no file that can be included. Otherwise its files are
brought in. -/
theorem tracedRequire_cases {expand : Tracer} {flags : InclusionFlags} {base : Path}
    {lexeme target : Text}
    (done : context.tracedRequire expand turns flags base progress lexeme target =
      some (trace, after)) :
    (∃ (files marked : List Path),
      trace = ofText lexeme ++ [.passed turns (files.map context.tree.canonical)] ∧
      after = marked.foldl Progress.markFile progress ∧
      (∀ file ∈ marked, file ∈ files.map context.tree.canonical) ∧
      ∀ file ∈ files.map context.tree.canonical, context.fileCode? file = none) ∨
    ∃ files inner,
      context.targetFiles? flags base target = some files ∧
      tracedAll expand turns []
        (context.gather progress (context.pendingFiles flags progress files)).2
        (context.gather progress (context.pendingFiles flags progress files)).1 =
          some (inner, after) ∧
      trace = .opened (context.pendingFiles flags progress files) :: framed flags inner ++
        [.passed turns (files.map context.tree.canonical)] := by
  unfold tracedRequire at done
  cases found : context.targetFiles? flags base target with
  | none =>
    rw [found] at done
    cases done
    exact .inl ⟨[], [], rfl, rfl, fun _ member => member, fun _ member => nomatch member⟩
  | some files =>
    rw [found] at done
    dsimp only at done
    split at done
    · rename_i alone
      cases done
      obtain ⟨⟨one, _⟩, unreadable⟩ := alone
      refine .inl ⟨files, context.pendingFiles flags progress files, rfl, rfl,
        fun _ => mem_of_mem_filter, ?_⟩
      obtain ⟨only, rfl⟩ := length_eq_one_iff.mp one
      obtain ⟨file, within, failed⟩ := any_eq_true.mp unreadable
      intro other member
      rw [mem_singleton.mp member, ← mem_singleton.mp (mem_of_mem_filter within)]
      unfold fileCode?
      rw [Option.isNone_iff_eq_none.mp failed]
      rfl
    · simp only [Option.bind_eq_bind, Option.bind_eq_some_iff] at done
      obtain ⟨⟨inner, last⟩, expanded, same⟩ := done
      cases same
      exact .inr ⟨files, inner, rfl, expanded, rfl⟩

theorem marks_framed (flags : InclusionFlags) (trace : List Event) :
    marks (framed flags trace) = marks trace := by
  unfold framed
  split
  · exact Event.marks_marks trace
  · split
    · rfl
    · rw [Event.marks_append, Event.marks_append, Event.marks_ofText, Event.marks_ofText,
        nil_append, append_nil]

/-! ### The code of a file -/

/-- What the code of a file has become by the expansion of its own directives. -/
def Inlined (context : Context) (file : Path) (code : Text) : Prop :=
  ∃ own fuel before after, context.fileCode? file = some own ∧
    context.expandRequires fuel (file.parent?.getD ⟨""⟩) before own = some (code, after)

/-- Where the code of a file ends, it stands right before. White space alone may be left out. -/
def Placed (context : Context) (trace : List Event) : Prop :=
  ∀ left file code right, trace = left ++ .ended file code :: right →
    context.Inlined file code ∧ (code <:+ written left ∨ allBlank code = true)

namespace Placed

variable {context : Context}

private theorem of_none (none : finished trace = []) : context.Placed trace := by
  rintro left file code right rfl
  rw [Event.finished_append] at none
  cases (append_eq_nil_iff.mp none).2

private theorem append {first second : List Event} (begun : context.Placed first)
    (ended : context.Placed second) : context.Placed (first ++ second) := by
  intro left file code right split
  rcases append_eq_append_cons split with ⟨more, firstIs⟩ | ⟨more, rfl, secondIs⟩
  · exact begun left file code more firstIs
  · obtain ⟨inlined, stands⟩ := ended more file code right secondIs
    refine ⟨inlined, stands.imp_left fun stands => ?_⟩
    rw [Event.written_append]
    exact stands.trans (suffix_append _ _)

private theorem ended {own : List Event} (placed : context.Placed own) {file : Path}
    (inlined : context.Inlined file (written own)) :
    context.Placed (own ++ [.ended file (written own)]) := by
  intro left other code right split
  rcases append_eq_append_cons split with ⟨more, ownIs⟩ | ⟨more, rfl, last⟩
  · exact placed left other code more ownIs
  · obtain ⟨rfl, same⟩ := singleton_eq_append_cons last
    cases same
    rw [append_nil]
    exact ⟨inlined, .inl (suffix_refl _)⟩

private theorem framed (placed : context.Placed trace) (flags : InclusionFlags) :
    context.Placed (framed flags trace) := by
  have text (chars : Text) : context.Placed (ofText chars) := by
    apply of_none
    rw [← Event.finished_marks, Event.marks_ofText]
    rfl
  unfold Context.framed
  split
  · rename_i blank
    intro left file code right split
    obtain ⟨before, after, rfl, _⟩ := Event.marks_eq_append_cons split
    obtain ⟨inlined, stands⟩ := placed before file code after rfl
    refine ⟨inlined, .inr ?_⟩
    rcases stands with ⟨start, whole⟩ | blankCode
    · rw [Event.written_append, ← whole, allBlank_iff] at blank
      exact allBlank_iff.mpr fun c member => blank c (by simp [member])
    · exact blankCode
  · split
    · exact placed
    · exact ((text _).append placed).append (text _)

end Placed

private theorem tracedAll_placed {fuel : Nat} (each : ∀ {turns base progress code trace after},
      context.tracedRequires fuel turns base progress code = some (trace, after) →
        context.Placed trace) {earlier : List Path}
    (known : ∀ inclusion ∈ inclusions, context.fileCode? inclusion.path = some inclusion.code)
    (done : tracedAll (context.tracedRequires fuel) turns earlier progress inclusions =
      some (trace, after)) : context.Placed trace := by
  induction inclusions generalizing earlier progress trace with
  | nil =>
    cases done
    exact .of_none rfl
  | cons inclusion rest ih =>
    obtain ⟨own, next, others, expanded, remaining, rfl⟩ := tracedAll_cons done
    obtain ⟨first, later⟩ := forall_mem_cons.mp known
    have inlined : context.Inlined inclusion.path (written own) := by
      refine ⟨inclusion.code, fuel, progress, next, first, ?_⟩
      rw [← context.written_tracedRequires, expanded]
      rfl
    have between : context.Placed (if rest.isEmpty then [] else [.wrote '\n']) := by
      apply Placed.of_none
      cases rest.isEmpty <;> rfl
    rw [append_assoc, cons_append, ← singleton_append, ← append_assoc]
    exact ((each expanded).ended inlined).append (between.append (ih later remaining))

theorem tracedRequires_placed {fuel : Nat} {base : Path} {code : Text}
    (done : context.tracedRequires fuel turns base progress code = some (trace, after)) :
    context.Placed trace := by
  induction fuel generalizing turns base progress after code trace with
  | zero => cases done
  | succ fuel ih =>
    refine weaveTraced_induct (fun _ trace _ => context.Placed trace) (fun _ => .of_none rfl)
      (fun _ _ => .of_none rfl) (fun begun ended => begun.append ended) ?_ done
    intro lexeme directive _ progress trace next required
    rcases tracedRequire_cases required with
      ⟨files, marked, rfl, _⟩ | ⟨files, inner, _, expanded, rfl⟩
    · apply Placed.of_none
      rw [← Event.finished_marks, Event.marks_append, Event.marks_ofText]
      rfl
    · have members := tracedAll_placed (fun done => ih done)
        (fun inclusion member => (context.gather_mem _ _ member).2) expanded
      exact ((Placed.of_none rfl : context.Placed [.opened _]).append (members.framed _)).append
        (.of_none rfl)

end Context

end PageScript
