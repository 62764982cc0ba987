import PageScript.Proofs.Template.Statements
import PageScript.Proofs.Template.Tokens

/-! Names that a template script holds in place of identifiers (`emit_names_hyphenated`). -/

open List

namespace PageScript.Template

variable {registry : Registry} {depth : Nat} {text rest name content : Text} {kind : Kind}

/-- A letter, `_` or `$`, followed by word characters and `$`. -/
def Identifier (name : Text) : Prop :=
  ∃ c rest, name = c :: rest ∧ isNameStart c = true ∧ ∀ d ∈ rest, isNameRest d = true

theorem isNameRest_of_isNameStart {c : Char} (starts : isNameStart c = true) : isNameRest c = true := by
  rw [isNameStart, Bool.or_eq_true, Bool.or_eq_true] at starts
  rcases starts with (letter | bar) | dollar
  · have word := isWord_of_isTagChar (c := c) (by rw [isTagChar, Char.isAlphanum, letter]; rfl)
    rw [isNameRest, word]
    rfl
  · rw [eq_of_beq bar]
    rfl
  · rw [eq_of_beq dollar]
    rfl

theorem Hyphenated.identifier_iff (hyphenated : Hyphenated name) : Identifier name ↔ '-' ∉ name := by
  obtain ⟨c, rest, rfl, starts, inside⟩ := hyphenated
  constructor
  · rintro ⟨_, _, same, first, others⟩ member
    cases same
    rcases mem_cons.mp member with rfl | later
    · cases first
    · cases others _ later
  · intro absent
    refine ⟨c, rest, rfl, starts, fun d member => ?_⟩
    refine (Bool.or_eq_true_iff.mp (inside d member)).resolve_right fun hyphen => ?_
    exact absent (mem_cons_of_mem c (eq_of_beq hyphen ▸ member))

theorem Hyphenated.functionName (hyphenated : Hyphenated name) : Hyphenated (functionName name) := by
  obtain ⟨c, rest, rfl, starts, inside⟩ := hyphenated
  refine ⟨'_', "_lxBlock_".toList ++ c :: rest, rfl, rfl, ?_⟩
  rw [forall_mem_append, forall_mem_cons]
  refine ⟨by decide, ?_, inside⟩
  rw [isNameRest_of_isNameStart starts]
  rfl

theorem applyAll_calls {widget whole : Widget} {pieces : List (Piece (Except Cause LineToken))}
    (done : widget.applyAll pieces = .ok whole) :
    ∀ made ∈ whole.calls, made ∈ widget.calls ∨ ∃ lexeme, .found lexeme (.ok (.call made)) ∈ pieces := by
  fun_induction Widget.applyAll widget pieces with
  | case1 => cases done
  | case2 widget c rest ih =>
    exact fun made member => (ih done made member).imp_right fun ⟨lexeme, found⟩ =>
      ⟨lexeme, mem_cons_of_mem _ found⟩
  | case3 => cases done
  | case4 =>
    cases done
    exact fun made member => .inl member
  | case5 widget lexeme token rest other ih =>
    intro made member
    rcases ih done made member with applied | ⟨lexeme, found⟩
    · cases token with
      | call own =>
        rcases mem_append.mp applied with earlier | here
        · exact .inl earlier
        · rw [mem_singleton.mp here]
          exact .inr ⟨lexeme, mem_cons_self⟩
      | _ => exact .inl applied
    · exact .inr ⟨lexeme, mem_cons_of_mem _ found⟩

theorem lineKind_names (classified : lineKind registry depth content = .ok (some kind)) (line : Nat) :
    ∀ name ∈ (Node.leaf kind depth line).names, Hyphenated name := by
  rcases lineKind_cases classified with ⟨_, rfl⟩ | ⟨link, text, tagged⟩ | ⟨_, _, _, widget, rfl, done⟩
  · exact fun name member => absurd member not_mem_nil
  · obtain ⟨_, _, named, rfl, _⟩ := blockTag_eq_ok tagged
    intro name member
    rw [mem_singleton.mp member]
    exact (lineName_eq_some named).2.functionName
  · intro name member
    obtain ⟨made, among, rfl⟩ := mem_map.mp member
    rcases applyAll_calls done made among with none | ⟨lexeme, found⟩
    · exact absurd none not_mem_nil
    · obtain ⟨_, _, _, recognised⟩ := Text.recognised_of_mem_cutFrom found
      exact lineToken_proper recognised

private theorem mem_allNodes_roots {roots : List Node} {node : Node} :
    node ∈ allNodes (definitions roots ++ contents roots) ↔ node ∈ allNodes roots := by
  have same : ∀ root, root ∈ definitions roots ++ contents roots ↔ root ∈ roots := by
    intro root
    rw [mem_append, definitions, contents, mem_filter, mem_filter]
    cases root.isDefinition <;> simp
  simp only [mem_allNodes, same]

theorem emit_names_hyphenated {file : String} {offset : Nat} {output : Option Text} {roots : List Node}
    {script : Text} (parsed : read registry file offset text = .ok roots)
    (emitted : emit file output roots = .ok script) :
    ∃ statements : List Statement, statements.flatMap Statement.text = script ∧
      (∀ name, name ∈ statements.flatMap Statement.names ↔ ∃ node ∈ allNodes roots, name ∈ node.names) ∧
      ∀ name ∈ statements.flatMap Statement.names, Hyphenated name ∧ (Identifier name ↔ '-' ∉ name) := by
  obtain ⟨statements, written, _, named, _⟩ := emit_statements emitted
  have from_nodes : ∀ name, name ∈ statements.flatMap Statement.names ↔
      ∃ node ∈ allNodes roots, name ∈ node.names := by
    intro name
    simp only [named, mem_flatMap, mem_allNodes_roots]
  refine ⟨statements, written, from_nodes, fun name member => ?_⟩
  -- A name of the script is one of a node, which comes from a line of the text.
  obtain ⟨node, among, own⟩ := (from_nodes name).mp member
  obtain ⟨line, _, _, classified⟩ := read_stems parsed node among
  have hyphenated := lineKind_names classified node.line name own
  exact ⟨hyphenated, hyphenated.identifier_iff⟩

def hyphenBox : Node :=
  .leaf (.widget { tag := "Box".toList, constructor := "lx.Box".toList, calls := [⟨"a-b".toList, []⟩] }) 0 1

def hyphenScript : Text :=
  "(function()\x7b\nconst __w0 = new lx.Box(\x7b\x7d);\n__w0.a-b();\n\x7d)();".toList

/-- A script takes the name of a method as it is, also where it is no identifier. -/
theorem emit_names_hyphenated_box :
    read .builtin "v.js" 0 "<Box #a-b()>".toList = .ok [hyphenBox] ∧
      emit "v.js" none [hyphenBox] = .ok hyphenScript ∧
      ∃ statements : List Statement, statements.flatMap Statement.text = hyphenScript ∧
        "a-b".toList ∈ statements.flatMap Statement.names ∧ ¬ Identifier "a-b".toList := by
  have parsed : read .builtin "v.js" 0 "<Box #a-b()>".toList = .ok [hyphenBox] := rfl
  have emitted : emit "v.js" none [hyphenBox] = .ok hyphenScript := by decide +kernel
  obtain ⟨statements, written, from_nodes, each⟩ := emit_names_hyphenated parsed emitted
  have member := (from_nodes "a-b".toList).mpr
    ⟨hyphenBox, mem_allNodes_root mem_cons_self, mem_cons_self⟩
  exact ⟨parsed, emitted, statements, written, member,
    fun identifier => (each _ member).2.mp identifier (by decide)⟩

end PageScript.Template
