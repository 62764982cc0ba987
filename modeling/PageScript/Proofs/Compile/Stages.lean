import PageScript.Proofs.Compile.Steps
import PageScript.Proofs.Directive.Places
import PageScript.Proofs.Template.Faults

/-! The stages of the pass before class sugar, each as a rewriting (`prepare_lead`). -/

open List

namespace PageScript

open Text.Rewriting Text Directive

variable (code : Text)

theorem Text.weave_fst_eq {α σ : Type} {step : σ → Text → α → Text × σ} {write : Text → α → Text}
    (same : ∀ state lexeme value, (step state lexeme value).1 = write lexeme value) (state : σ)
    (pieces : List (Piece α)) : (weave step state pieces).1 = writePieces write pieces := by
  induction pieces generalizing state with
  | nil => rfl
  | cons piece rest ih =>
    cases piece with
    | plain c => exact congrArg (c :: ·) (ih state)
    | found lexeme value =>
      change (step state lexeme value).1 ++ (weave step (step state lexeme value).2 rest).1 = _
      rw [same, ih]
      rfl

def uncommenting (code : Text) : Rewriting :=
  replacing commentedOut (fun _ => []) code

def commentParts (lexeme : Text) : Script.Lexeme → Rewriting
  | .literal => kept lexeme
  | .comment => lexeme.map fun c => ([c], if c = '\n' then [c] else [])

def stripping (code : Text) : Rewriting :=
  ofPieces commentParts (cut Script.lexeme code)

def undeclaring (code : Text) : Rewriting :=
  replacing moduleDirective (fun _ => []) code

/-- A block that is kept loses its two markers, any other block is taken out. -/
def blockParts (word : String) (active lexeme : Text) : Text × Text → Rewriting
  | (label, body) =>
      if sameUpToCase label active then
        let marker := lexeme.length - (body.length + (closing word).length)
        (lexeme.take marker, []) :: kept body ++ [(lexeme.drop (marker + body.length), [])]
      else [(lexeme, [])]

def filtering (word : String) (active code : Text) : Rewriting :=
  ofPieces (blockParts word active) (cut (labelledBlock word) code)

namespace Context

def templateScript (context : Context) (label : String) (block : TemplateBlock) :
    Except Violation Text :=
  Template.script context.compiler.widgets label block.output block.offset block.body

def expanding (context : Context) (label : String) (code : Text) : Rewriting :=
  replacing templateBlock
    (fun block => (context.templateScript label block).toOption.getD []) code

def injecting (context : Context) (base : Path) (code : Text) : Rewriting :=
  replacing dataReference
    (fun (format, path) =>
      (context.dataText format (base.join ⟨String.ofList path⟩).normalize).toOption.getD
        "null".toList)
    code

/-- The stages of the pass before class sugar, the last of them first. -/
def stages (context : Context) (label : String) (base : Path) (code : Text) : List Rewriting :=
  let uncommented := uncommenting code
  let expanded := context.expanding label uncommented.result
  let stripped := stripping expanded.result
  let undeclared := undeclaring stripped.result
  let filtered := filtering "context" context.settings.side.label.toList undeclared.result
  [context.injecting base filtered.result, filtered, undeclared, stripped, expanded, uncommented]

end Context

theorem source_stripping : (stripping code).source = code := by
  refine (source_ofPieces _ fun lexeme kind _ => ?_).trans (flatMap_source_cut _ code)
  cases kind with
  | literal => exact source_kept lexeme
  | comment =>
    rw [commentParts, source, flatMap_map]
    exact flatMap_singleton' lexeme

private theorem result_comment (lexeme : Text) :
    (commentParts lexeme .comment).result = List.replicate (newlines lexeme) '\n' := by
  rw [commentParts]
  induction lexeme with
  | nil => rfl
  | cons c rest ih =>
    rw [map_cons, result_cons, ih]
    by_cases isEnd : c = '\n'
    · rw [if_pos isEnd, isEnd, newlines_newline, replicate_succ]
      rfl
    · rw [if_neg isEnd, newlines_cons_of_ne isEnd]
      rfl

theorem result_stripping : (stripping code).result = Script.stripComments code := by
  refine result_ofPieces _ fun lexeme kind _ => ?_
  cases kind with
  | literal => exact result_kept lexeme
  | comment => exact result_comment lexeme

theorem erases_stripping : Erases (stripping code) := by
  refine erases_ofPieces _ fun lexeme kind _ => ?_
  cases kind with
  | literal => exact erases_kept lexeme
  | comment =>
    intro part member
    obtain ⟨c, _, rfl⟩ := mem_map.mp member
    by_cases isEnd : c = '\n'
    · exact .inr ⟨c, by rw [if_pos isEnd]⟩
    · exact .inl (if_neg isEnd)

private theorem balanced_stripping : Balanced (stripping code) := by
  refine balanced_ofPieces _ fun lexeme kind _ => ?_
  cases kind with
  | literal => exact balanced_kept lexeme
  | comment =>
    intro part member
    obtain ⟨c, _, rfl⟩ := mem_map.mp member
    by_cases isEnd : c = '\n'
    · rw [if_pos isEnd]
    · rw [if_neg isEnd]
      exact (newlines_eq_zero fun inside => isEnd (mem_singleton.mp inside).symm).symm

theorem erases_uncommenting : Erases (uncommenting code) :=
  erases_replacing commentedOut code

private theorem erases_undeclaring : Erases (undeclaring code) :=
  erases_replacing moduleDirective code

private theorem balanced_uncommenting : Balanced (uncommenting code) := by
  refine balanced_ofPieces _ fun lexeme _ member part within => ?_
  rw [mem_singleton.mp within]
  obtain ⟨left, right, pieces⟩ := append_of_mem member
  obtain ⟨taken, _, flat, whole⟩ :=
    commentedOut_flat (commentedOut_consumes.cut pieces)
  rw [append_cancel_right whole]
  exact (newlines_eq_zero flat).symm

private theorem blockParts_cases {word : String} {active code lexeme label body : Text}
    (member : .found lexeme (label, body) ∈ cut (labelledBlock word) code) :
    (sameUpToCase label active = true ∧ ∃ start, lexeme = start ++ body ++ closing word ∧
      blockParts word active lexeme (label, body) =
        (start, []) :: kept body ++ [(closing word, [])]) ∨
    (sameUpToCase label active = false ∧
      blockParts word active lexeme (label, body) = [(lexeme, [])]) := by
  rw [blockParts]
  by_cases mine : sameUpToCase label active = true
  · rw [if_pos mine]
    obtain ⟨start, rfl⟩ := exists_of_mem_cut member
    have marker : (start ++ body ++ closing word).length -
        (body.length + (closing word).length) = start.length := by
      rw [length_append, length_append]
      omega
    refine .inl ⟨mine, start, rfl, ?_⟩
    dsimp only
    rw [marker, append_assoc, take_left, ← append_assoc, ← length_append,
      drop_left]
  · rw [if_neg mine]
    exact .inr ⟨Bool.not_eq_true _ ▸ mine, rfl⟩

private theorem source_filtering (word : String) (active code : Text) :
    (filtering word active code).source = code := by
  refine (source_ofPieces _ fun lexeme value member => ?_).trans (flatMap_source_cut _ code)
  obtain ⟨label, body⟩ := value
  rcases blockParts_cases member with ⟨_, start, rfl, same⟩ | ⟨_, same⟩
  · rw [same, source_append, source_cons, source_kept]
    exact congrArg (start ++ body ++ ·) (append_nil _)
  · rw [same]
    exact append_nil lexeme

private theorem result_filtering (word : String) (active code : Text) :
    (filtering word active code).result = filterBlocks word active code := by
  refine result_ofPieces _ fun lexeme value member => ?_
  obtain ⟨label, body⟩ := value
  rcases blockParts_cases member with ⟨mine, start, rfl, same⟩ | ⟨other, same⟩
  · dsimp only
    rw [same, result_append, result_cons, result_kept, if_pos mine]
    exact append_nil body
  · dsimp only
    rw [same, other]
    rfl

private theorem erases_filtering (word : String) (active code : Text) :
    Erases (filtering word active code) := by
  refine erases_ofPieces _ fun lexeme value member part within => ?_
  obtain ⟨label, body⟩ := value
  rcases blockParts_cases member with ⟨_, start, rfl, same⟩ | ⟨_, same⟩
  · rw [same] at within
    rcases mem_append.mp within with front | back
    · rcases mem_cons.mp front with rfl | inside
      · exact .inl rfl
      · exact erases_kept body part inside
    · rw [mem_singleton.mp back]
      exact .inl rfl
  · rw [same] at within
    rw [mem_singleton.mp within]
    exact .inl rfl

namespace Context

variable (context : Context)

theorem result_expanding (label : String) (file : Option Path) (progress : Progress) (code : Text) :
    (context.expanding label code).result = (context.expandTemplates label file progress code).1 := by
  rw [expanding, result_replacing, Text.replace]
  refine (weave_fst_eq (fun state lexeme block => ?_) progress _).symm
  unfold templateScript Template.script
  dsimp only
  split
  · rename_i script emitted
    rw [emitted]
    rfl
  · rename_i violation emitted
    rw [emitted]
    rfl

theorem result_injecting (base : Path) (file : Option Path) (progress : Progress) (code : Text) :
    (context.injecting base code).result = (context.injectData base file progress code).1 := by
  rw [injecting, result_replacing, Text.replace]
  refine (weave_fst_eq (fun state lexeme reference => ?_) progress _).symm
  obtain ⟨format, path⟩ := reference
  dsimp only
  cases context.dataText format (base.join ⟨String.ofList path⟩).normalize <;> rfl

theorem trace_stages (label : String) (base : Path) (code : Text) (place : Nat) :
    ∃ data blocks directives comments templates commented : Rewriting,
      trace (context.stages label base code) place =
        [data, blocks, directives, comments, templates, commented] ∧
      allGained [data, blocks, directives, comments, templates, commented] =
        data.gained + templates.gained ∧
      allLost [data, blocks, directives, comments, templates, commented] =
        data.lost + blocks.lost + directives.lost + templates.lost := by
  have blocks (text : Text) (place : Nat) := ((erases_filtering "context"
    context.settings.side.label.toList text).upTo place).gained
  have directives (text : Text) (place : Nat) := ((erases_undeclaring text).upTo place).gained
  have comments (text : Text) (place : Nat) :=
    ((balanced_stripping text).upTo (erases_stripping text) place).gained_lost
  have commented (place : Nat) :=
    ((balanced_uncommenting code).upTo (erases_uncommenting code) place).gained_lost
  refine ⟨_, _, _, _, _, _, rfl, ?_, ?_⟩
  · simp only [allGained, blocks, directives, comments, commented]
    omega
  · simp only [allLost, comments, commented]
    omega

theorem prepare_lead (label : String) (base : Path) (file : Option Path)
    (progress : Progress) (code : Text) :
    Lead code (context.stages label base code) (context.prepare label base file progress code).1 := by
  have uncommented : (uncommenting code).result = dropCommentedOut code :=
    result_replacing _ _ _
  have expanded := context.result_expanding label file progress (dropCommentedOut code)
  have undeclared (text : Text) : (undeclaring text).result = dropModuleDirectives text :=
    result_replacing _ _ _
  refine ⟨?_, (source_replacing _ _ _).symm, (source_filtering _ _ _).symm,
    (source_replacing _ _ _).symm, (source_stripping _).symm, (source_replacing _ _ _).symm,
    (source_replacing _ _ _).symm⟩
  rw [uncommented, expanded, result_stripping, undeclared, result_filtering]
  exact context.result_injecting base file _ _

end Context

end PageScript
