import PageScript.Proofs.Template.Reading
import PageScript.Proofs.Text.Lines

/-! The line that a violation of a template gives. -/

open List

namespace PageScript.Template

open Text (newlines Trimmed)

variable {line : SourceLine} {text : Text} {offset base : Nat} {registry : Registry} {file : String}
  {reading : Reading} {violation : Violation} {names : List Text} {node : Node} {cause : Cause}
  {nodes roots : List Node}

def lineAt (number : Nat) (line : Text) : List SourceLine :=
  if Text.allBlank line then [] else [{ number, text := Text.trimEnd line }]

private theorem lineAt_withoutReturn (number : Nat) (line : Text) :
    lineAt number (Text.withoutReturn line) = lineAt number line := by
  unfold Text.withoutReturn
  split
  · rename_i last
    obtain ⟨front, rfl⟩ := getLast?_eq_some_iff.mp last
    have blank : isBlank '\r' = true := by decide
    have ended : Text.trimEnd (front ++ ['\r']) = Text.trimEnd front := by
      rw [Text.trimEnd, reverse_append, Text.trimEnd]
      exact congrArg List.reverse (dropWhile_cons_of_pos blank)
    have same : Text.allBlank (front ++ ['\r']) = Text.allBlank front := by
      rw [Text.allBlank, all_append, Text.allBlank]
      simp [blank]
    rw [dropLast_concat, lineAt, lineAt, ended, same]
  · rfl

theorem sourceLines_of_flat {line : Text} (flat : '\n' ∉ line) (offset : Nat) :
    sourceLines offset line = lineAt (offset + 1) line := by
  rw [sourceLines, Text.lines_of_flat flat, lineAt]
  by_cases empty : line = []
  · rw [if_pos empty, empty]
    rfl
  · rw [if_neg empty]
    cases blank : Text.allBlank line with
    | true => simp [blank]
    | false => simp [blank]

theorem sourceLines_append {line : Text} (flat : '\n' ∉ line) (offset : Nat) (rest : Text) :
    sourceLines offset (line ++ '\n' :: rest) =
      lineAt (offset + 1) line ++ sourceLines (offset + 1) rest := by
  have renumbered : (fun entry : Text × Nat =>
      ({ number := offset + (entry.2 + 1) + 1, text := Text.trimEnd entry.1 } : SourceLine)) =
      fun entry => { number := offset + 1 + entry.2 + 1, text := Text.trimEnd entry.1 } := by
    funext entry
    congr 1
    omega
  rw [← lineAt_withoutReturn, sourceLines, Text.lines_append flat, lineAt, sourceLines,
    zipIdx_cons, zipIdx_succ, filter_cons, filter_map]
  by_cases blank : Text.allBlank (Text.withoutReturn line) = true
  · rw [if_neg (by simp [blank]), if_pos blank, map_map]
    exact congrArg (List.map · _) renumbered
  · rw [if_pos (by simp [blank]), if_neg blank, map_cons, map_map]
    exact congrArg (_ :: List.map · _) renumbered

private theorem lineAt_eq_append {number : Nat} {others earlier later : List SourceLine}
    (split : lineAt number text ++ others = earlier ++ line :: later) :
    (earlier = [] ∧ Text.allBlank text = false ∧ line = ⟨number, Text.trimEnd text⟩) ∨
      ∃ rest, earlier = lineAt number text ++ rest ∧ others = rest ++ line :: later := by
  unfold lineAt at split ⊢
  by_cases blank : Text.allBlank text = true
  · rw [if_pos blank] at split ⊢
    exact .inr ⟨earlier, rfl, split⟩
  · rw [if_neg blank] at split ⊢
    cases earlier with
    | nil =>
      obtain ⟨same, _⟩ := List.cons.inj split
      exact .inl ⟨rfl, Bool.not_eq_true _ ▸ blank, same.symm⟩
    | cons first earlier =>
      obtain ⟨rfl, rest⟩ := List.cons.inj split
      exact .inr ⟨earlier, rfl, rest⟩

private theorem lineAt_place {line : Text} (flat : '\n' ∉ line) (some : Text.allBlank line = false)
    (offset : Nat) :
    ∃ ahead content after, line = ahead ++ content ++ after ∧ '\n' ∉ ahead ∧ '\n' ∉ content ∧
      Trimmed content ∧ content = Text.trim (Text.trimEnd line) ∧ sourceLines offset ahead = [] ∧
      sourceLines offset (ahead ++ content) = [⟨offset + 1, Text.trimEnd line⟩] := by
  obtain ⟨ahead, content, after, rfl, trimmed, leading, trailing⟩ := Text.exists_trimmed some
  simp only [mem_append, not_or] at flat
  obtain ⟨⟨first, second⟩, _⟩ := flat
  have bare : ∀ c ∈ ([] : Text), isBlank c = true := fun _ member => nomatch member
  have ended := trimmed.trimEnd ahead trailing
  have own := trimmed.trimEnd ahead bare
  have core := trimmed.trim leading bare
  rw [append_nil] at own core
  refine ⟨ahead, content, after, rfl, first, second, trimmed, ?_, ?_, ?_⟩
  · rw [ended, core]
  · rw [sourceLines_of_flat first, lineAt, if_pos (Text.allBlank_iff.mpr leading)]
  · have shown := trimmed.not_allBlank ahead []
    rw [append_nil] at shown
    have flat : '\n' ∉ ahead ++ content := fun member =>
      (mem_append.mp member).elim first second
    rw [sourceLines_of_flat flat, lineAt, shown, own, ended]
    rfl

/-- A line of a template stands where its number says: what is before it has the lines before it. -/
theorem sourceLines_place {earlier later : List SourceLine}
    (split : sourceLines offset text = earlier ++ line :: later) :
    ∃ ahead content rest, text = ahead ++ content ++ rest ∧ '\n' ∉ content ∧ Trimmed content ∧
      content = Text.trim line.text ∧ line.number = offset + newlines ahead + 1 ∧
      sourceLines offset ahead = earlier ∧
      sourceLines offset (ahead ++ content) = earlier ++ [line] := by
  induction text using Text.lines_induct generalizing offset earlier with
  | last own flat =>
    rw [sourceLines_of_flat flat, ← append_nil (lineAt _ _)] at split
    rcases lineAt_eq_append split with ⟨rfl, some, rfl⟩ | ⟨rest, _, impossible⟩
    · obtain ⟨ahead, content, after, whole, first, second, trimmed, same, before, upTo⟩ :=
        lineAt_place flat some offset
      refine ⟨ahead, content, after, whole, second, trimmed, same, ?_, before, upTo⟩
      rw [Text.newlines_eq_zero first]
    · cases rest <;> cases impossible
  | cons own rest flat ih =>
    rw [sourceLines_append flat] at split
    rcases lineAt_eq_append split with ⟨rfl, some, rfl⟩ | ⟨earlier, rfl, later⟩
    · obtain ⟨ahead, content, after, whole, first, second, trimmed, same, before, upTo⟩ :=
        lineAt_place flat some offset
      refine ⟨ahead, content, after ++ '\n' :: rest, ?_, second, trimmed, same, ?_, before, upTo⟩
      · rw [whole]
        simp only [append_assoc]
      · rw [Text.newlines_eq_zero first]
    · obtain ⟨ahead, content, after, rfl, second, trimmed, same, number, before, upTo⟩ := ih later
      refine ⟨own ++ '\n' :: ahead, content, after, ?_, second, trimmed, same, ?_, ?_, ?_⟩
      · simp only [append_assoc, cons_append]
      · rw [number, Text.newlines_append, Text.newlines_eq_zero flat, Text.newlines_newline]
        omega
      · rw [sourceLines_append flat, before]
      · rw [append_assoc, cons_append, sourceLines_append flat, upTo, append_assoc]

theorem Reading.step_eq_error (failed : reading.step registry file base line = .error violation) :
    violation.line = line.number ∧ ∃ shown, violation.context = some (String.ofList shown) ∧
      (shown = line.text ∨ shown = Text.trim line.text) := by
  have located (shown : Text) (cause : Cause) (same : lineViolation file line shown cause = violation)
      (either : shown = line.text ∨ shown = Text.trim line.text) :
      violation.line = line.number ∧ ∃ shown, violation.context = some (String.ofList shown) ∧
        (shown = line.text ∨ shown = Text.trim line.text) := by
    cases same
    exact ⟨rfl, shown, rfl, either⟩
  unfold Reading.step at failed
  rcases bind_eq_error.mp failed with first | ⟨⟨depth, unit⟩, _, failed⟩
  · obtain ⟨cause, _, same⟩ := mapError_eq_error.mp first
    exact located _ _ same (.inl rfl)
  · dsimp only at failed
    split at failed
    · cases failed
    · split at failed
      · cases failed
        exact ⟨rfl, line.text, rfl, .inl rfl⟩
      · rcases bind_eq_error.mp failed with second | ⟨kind, _, third⟩
        · obtain ⟨cause, _, same⟩ := mapError_eq_error.mp second
          exact located _ _ same (.inr rfl)
        · obtain ⟨cause, _, same⟩ := mapError_eq_error.mp third
          exact located _ _ same (.inl rfl)

theorem read_of_head {first : SourceLine} (head : (sourceLines offset text).head? = some first) :
    read registry file offset text =
      ((sourceLines offset text).foldlM (Reading.step registry file (indentOf first.text)) {} >>=
        fun reading => .ok (closeTo 0 reading.opened reading.roots).2.reverse) := by
  unfold read
  cases split : sourceLines offset text with
  | nil =>
    rw [split] at head
    cases head
  | cons other rest =>
    rw [split] at head
    cases head
    rfl

private theorem read_eq_error (failed : read registry file offset text = .error violation) :
    ∃ ahead content rest, text = ahead ++ content ++ rest ∧ '\n' ∉ content ∧ Trimmed content ∧
      violation.line = offset + newlines ahead + 1 ∧
      (∃ nodes, read registry file offset ahead = .ok nodes) ∧
      read registry file offset (ahead ++ content) = .error violation ∧
      ∃ shown, violation.context = some (String.ofList shown) ∧ Text.trim shown = content := by
  cases split : sourceLines offset text with
  | nil =>
    unfold read at failed
    rw [split] at failed
    cases failed
  | cons first others =>
    have head : (sourceLines offset text).head? = some first := by rw [split]; rfl
    rw [read_of_head head] at failed
    rcases bind_eq_error.mp failed with folded | ⟨_, _, impossible⟩
    · obtain ⟨earlier, line, later, reading, lines, before, here⟩ := foldlM_eq_error folded
      obtain ⟨number, shown, context, either⟩ := Reading.step_eq_error here
      obtain ⟨ahead, content, rest, whole, flat, trimmed, same, place, upTo, including⟩ :=
        sourceLines_place lines
      rw [lines] at head
      refine ⟨ahead, content, rest, whole, flat, trimmed, number.trans place, ?_, ?_, shown, context,
        ?_⟩
      · cases earlier with
        | nil =>
          refine ⟨[], ?_⟩
          unfold read
          rw [upTo]
          rfl
        | cons own earlier =>
          cases head
          rw [read_of_head (congrArg List.head? upTo), upTo, before]
          exact ⟨_, rfl⟩
      · have begun : (sourceLines offset (ahead ++ content)).head? = some first := by
          rw [including, ← head]
          cases earlier <;> rfl
        rw [read_of_head begun, including, foldlM_append, before]
        change (List.foldlM (Reading.step registry file (indentOf first.text)) reading [line] >>= _) =
          _
        rw [foldlM_cons, here]
        rfl
      · rcases either with rfl | rfl
        · exact same.symm
        · have bare : ∀ c ∈ ([] : Text), isBlank c = true := fun _ member => nomatch member
          have again := trimmed.trim bare bare
          rw [append_nil, nil_append] at again
          rw [← same, again]
    · cases impossible

/-- Each node that was read stands on one of the lines, which reads as it. -/
def Stems (registry : Registry) (lines : List SourceLine) (nodes : List Node) : Prop :=
  ∀ node ∈ nodes, ∃ line ∈ lines, node.line = line.number ∧
    lineKind registry node.depth (Text.trim line.text) = .ok (some node.kind)

theorem Stems.step {next : Reading} {seen : List SourceLine} (stems : Stems registry seen reading.soFar)
    (done : reading.step registry file base line = .ok next) :
    Stems registry (seen ++ [line]) next.soFar := by
  have earlier : Stems registry (seen ++ [line]) reading.soFar := by
    intro node member
    obtain ⟨other, among, same⟩ := stems node member
    exact ⟨other, mem_append_left _ among, same⟩
  rcases Reading.step_entries done with
    ⟨kind, depth, classified, added⟩ | ⟨before, owner, after, text, reads, writes⟩
  · rw [added]
    intro node member
    rcases mem_append.mp member with old | new
    · exact earlier node old
    · rw [mem_singleton.mp new]
      exact ⟨line, mem_append_right _ (mem_singleton_self line), rfl, classified⟩
  · -- the owner of raw HTML keeps its line and its kind
    rw [reads] at earlier
    rw [writes]
    intro node member
    rcases mem_append.mp member with front | rest
    · exact earlier node (mem_append_left _ front)
    · rcases mem_cons.mp rest with rfl | back
      · exact earlier owner (mem_append_right _ mem_cons_self)
      · exact earlier node (mem_append_right _ (mem_cons_of_mem _ back))

theorem Stems.foldlM (lines : List SourceLine) {seen : List SourceLine} {final : Reading}
    (stems : Stems registry seen reading.soFar)
    (done : lines.foldlM (Reading.step registry file base) reading = .ok final) :
    Stems registry (seen ++ lines) final.soFar := by
  induction lines generalizing reading seen with
  | nil =>
    cases done
    rwa [append_nil]
  | cons line rest ih =>
    rw [foldlM_cons] at done
    obtain ⟨next, stepped, remaining⟩ := bind_eq_ok.mp done
    have whole := ih (stems.step stepped) remaining
    rwa [append_assoc] at whole

theorem read_stems (done : read registry file offset text = .ok nodes) :
    Stems registry (sourceLines offset text) (allNodes nodes) := by
  obtain ⟨base, reading, folded, _, all⟩ := read_cases done
  have none : Stems registry [] ({} : Reading).soFar := fun _ member => nomatch member
  have stems := none.foldlM _ folded
  rw [← all] at stems
  intro node member
  exact stems node.entry (mem_map_of_mem member)

def script (registry : Registry) (file : String) (output : Option Text) (offset : Nat)
    (text : Text) : Except Violation Text := do
  let nodes ← read registry file offset text
  emit file output nodes

/-- How a content after the text ahead of it is at fault in a template: it is the first line that
cannot be read, or it reads as a node that is refused. -/
inductive AtFault (registry : Registry) (file : String) (offset : Nat) (text ahead content : Text)
    (violation : Violation) : Prop
  | reading (before : ∃ nodes, read registry file offset ahead = .ok nodes)
      (here : read registry file offset (ahead ++ content) = .error violation)
      (shown : ∃ shown, violation.context = some (String.ofList shown) ∧ Text.trim shown = content)
  | emitting {nodes : List Node} {node : Node} (before : read registry file offset text = .ok nodes)
      (refused : Refused nodes node violation.cause) (line : node.line = violation.line)
      (reads : lineKind registry node.depth content = .ok (some node.kind))

theorem script_eq_error {output : Option Text}
    (failed : script registry file output offset text = .error violation) :
    ∃ ahead content rest, text = ahead ++ content ++ rest ∧ '\n' ∉ content ∧ Trimmed content ∧
      violation.line = offset + newlines ahead + 1 ∧
      AtFault registry file offset text ahead content violation := by
  rcases bind_eq_error.mp failed with unread | ⟨nodes, done, refused⟩
  · obtain ⟨ahead, content, rest, whole, flat, trimmed, line, before, here, shown⟩ :=
      read_eq_error unread
    exact ⟨ahead, content, rest, whole, flat, trimmed, line, .reading before here shown⟩
  · obtain ⟨node, line, wrong⟩ := emit_blames file output nodes violation refused
    obtain ⟨source, member, number, reads⟩ := read_stems done node wrong.mem
    obtain ⟨earlier, later, split⟩ := append_of_mem member
    obtain ⟨ahead, content, rest, whole, flat, trimmed, rfl, place, _⟩ := sourceLines_place split
    exact ⟨ahead, _, rest, whole, flat, trimmed, by rw [line, number, place],
      .emitting done wrong line.symm reads⟩

end PageScript.Template
