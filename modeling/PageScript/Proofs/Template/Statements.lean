import PageScript.Proofs.Template.Acceptance

/-! Every template script is the text of a list of statements (`emit_statements`). -/

open List

namespace PageScript.Template

/-! ### Statements -/

/-- What a widget is created in. -/
inductive Holder where
  | nothing
  | widget (number : Nat)
  | item
  | parent

namespace Holder

def text? : Holder → Option Text
  | .nothing => none
  | .widget number => some (widgetVariable number)
  | .item => some "__item".toList
  | .parent => some "__parent".toList

def number? : Holder → Option Nat
  | .widget number => some number
  | _ => none

end Holder

def functionName (name : Text) : Text :=
  "__lxBlock_".toList ++ name

inductive Block where
  | script (output : Option Text)
  | function (name : Text)
  | control (control : Control)
  | item (number : Nat)

namespace Block

def opening : Block → Text
  | .script none => "(function()\x7b\n".toList
  | .script (some name) => "const ".toList ++ name ++
      " = (function()\x7b\nconst __out = \x7b\x7d;\nfunction _out(k, w) \x7b __out[k] = w; \x7d\n".toList
  | .function name => "function ".toList ++ functionName name ++ "(__parent) \x7b\n".toList
  | .control head => controlHead head
  | .item number => widgetVariable number ++ ".setItemRender((__item) => \x7b\n".toList

def closing : Block → Text
  | .script none => "\x7d)();".toList
  | .script (some _) => "return __out;\n\x7d)();".toList
  | .function _ | .control _ => "\x7d\n".toList
  | .item _ => "\x7d);\n".toList

end Block

inductive Statement where
  | create (number : Nat) (holder : Holder) (widget : Widget) (html : List Text)
  | call (number : Nat) (call : Call)
  | collect (number : Nat) (key : Text)
  | begins (number : Nat)
  | ends (number : Nat)
  | inserts (holder : Holder) (html : List Text)
  | links (name : Text) (holder : Holder)
  | opens (block : Block)
  | closes (block : Block)

structure Placement where
  number : Nat
  around : Option Nat
  widget : Widget

namespace Statement

def text : Statement → Text
  | .create number holder widget html =>
      "const ".toList ++ widgetVariable number ++ " = new ".toList ++ widget.constructor ++
        "(\x7b".toList ++ Text.join ", ".toList (settings holder.text? widget html) ++
        "\x7d);\n".toList
  | .call number made =>
      widgetVariable number ++ ['.'] ++ made.name ++ ['('] ++ made.args ++ ");\n".toList
  | .collect number key =>
      "_out(".toList ++ Json.quoted key ++ ", ".toList ++ widgetVariable number ++ ");\n".toList
  | .begins number => widgetVariable number ++ ".begin();\n".toList
  | .ends number => widgetVariable number ++ ".end();\n".toList
  | .inserts holder html =>
      holder.text?.getD "lx".toList ++ ".insertHtml(".toList ++
        Json.quoted (Text.join ['\n'] html) ++ ");\n".toList
  | .links name holder =>
      functionName name ++ ['('] ++ holder.text?.getD "null".toList ++ ");\n".toList
  | .opens block => block.opening
  | .closes block => block.closing

def uses : Statement → List Nat
  | .create _ holder _ _ | .inserts holder _ | .links _ holder => holder.number?.toList
  | .call number _ | .collect number _ | .begins number | .ends number | .opens (.item number) => [number]
  | _ => []

/-- The variables that are declared in each open block, innermost first, after a statement. -/
def scope : Statement → List (List Nat) → Option (List (List Nat))
  | .create number _ _ _, own :: outer => some ((number :: own) :: outer)
  | .create _ _ _ _, [] | .closes _, [] => none
  | .opens _, blocks => some ([] :: blocks)
  | .closes _, _ :: outer => some outer
  | _, blocks => some blocks

/-- The same if the statement uses only what is declared in an open block. -/
def enter (blocks : List (List Nat)) (statement : Statement) : Option (List (List Nat)) :=
  if ∀ number ∈ statement.uses, number ∈ blocks.flatten then statement.scope blocks else none

def placements : Statement → List Placement
  | .create number holder widget _ => [⟨number, holder.number?, widget⟩]
  | _ => []

/-- The names that stand in a statement as they are, in place of an identifier. -/
def names : Statement → List Text
  | .call _ made => [made.name]
  | .links name _ | .opens (.function name) => [functionName name]
  | _ => []

end Statement

/-! ### Forests -/

def Node.names (node : Node) : List Text :=
  match node.kind with
  | .widget widget => widget.calls.map (·.name)
  | .control _ => []
  | .block name _ => [functionName name]

mutual

/-- The widgets of a node in reading order, numbered from `next`, each with the nearest widget around
it unless that is a matrix or at the top. -/
def Node.placements (around : Option Nat) (top : Bool) (next : Nat) : Node → List Placement
  | ⟨.widget widget, _, _, children, _⟩ =>
      ⟨next, around, widget⟩ ::
        placementsAll (if widget.isMatrix || top then none else some next) false (next + 1) children
  | ⟨.control _, _, _, children, _⟩ => placementsAll around top next children
  | ⟨.block _ _, _, _, children, _⟩ => placementsAll none false next children

def placementsAll (around : Option Nat) (top : Bool) (next : Nat) : List Node → List Placement
  | [] => []
  | node :: rest =>
      node.placements around top next ++
        placementsAll around top (next + (node.placements around top next).length) rest

end

def placements (roots : List Node) : List Placement :=
  let inBlocks := placementsAll none false 0 ((definitions roots).flatMap (·.children))
  inBlocks ++ placementsAll none true inBlocks.length (contents roots)

theorem placementsAll_append (around : Option Nat) (top : Bool) (next : Nat) (left right : List Node) :
    placementsAll around top next (left ++ right) = placementsAll around top next left ++
      placementsAll around top (next + (placementsAll around top next left).length) right := by
  induction left generalizing next with
  | nil => rfl
  | cons node rest ih =>
    rw [cons_append, placementsAll, placementsAll, ih, append_assoc, length_append, Nat.add_assoc]

/-! ### Outlines -/

/-- A code is the text of statements with these widgets and names. Where `seen` is declared they use
declared variables only, and they leave `left` declared. -/
structure Outline (seen : Option Nat) (left : List Nat) (code : Text) (places : List Placement)
    (names : List Text) (statements : List Statement) : Prop where
  text : statements.flatMap Statement.text = code
  places : statements.flatMap Statement.placements = places
  names : statements.flatMap Statement.names = names
  runs : ∀ own outer, (∀ number ∈ seen, number ∈ (own :: outer).flatten) →
    statements.foldlM Statement.enter (own :: outer) = some ((left ++ own) :: outer)

def Outlined (seen : Option Nat) (code : Text) (places : List Placement) (names : List Text) : Prop :=
  ∃ left statements, Outline seen left code places names statements

variable {seen other : Option Nat} {left more : List Nat} {code rest : Text}
variable {places others : List Placement} {names further : List Text}
variable {statements following : List Statement}

namespace Outline

private theorem nil (seen : Option Nat) : Outline seen [] [] [] [] [] :=
  ⟨rfl, rfl, rfl, fun _ _ _ => rfl⟩

private theorem mono (outline : Outline seen left code places names statements)
    (within : ∀ number ∈ seen, number ∈ other) : Outline other left code places names statements :=
  ⟨outline.text, outline.places, outline.names, fun own outer declared =>
    outline.runs own outer fun number member => declared number (within number member)⟩

private theorem append (first : Outline seen left code places names statements)
    (second : Outline other more rest others further following)
    (reached : ∀ number ∈ other, number ∈ left ∨ number ∈ seen) :
    Outline seen (more ++ left) (code ++ rest) (places ++ others) (names ++ further)
      (statements ++ following) := by
  refine ⟨?_, ?_, ?_, fun own outer declared => ?_⟩
  · rw [flatMap_append, first.text, second.text]
  · rw [flatMap_append, first.places, second.places]
  · rw [flatMap_append, first.names, second.names]
  · -- What the first part needs is still declared when the second one starts.
    rw [foldlM_append, first.runs own outer declared, append_assoc]
    refine second.runs (left ++ own) outer fun number member => ?_
    rcases reached number member with new | known
    · exact mem_flatten.mpr ⟨_, mem_cons_self, mem_append_left own new⟩
    · have before := declared number known
      rw [flatten_cons, mem_append] at before ⊢
      exact before.imp_left (mem_append_right left)

private theorem under {number : Nat} (first : Outline seen [number] code places names statements)
    (second : Outline (some number) more rest others further following) :
    Outline seen (more ++ [number]) (code ++ rest) (places ++ others) (names ++ further)
      (statements ++ following) := by
  refine first.append second fun other member => .inl ?_
  rw [Option.mem_some_iff.mp member]
  exact mem_singleton_self other

theorem of_statement (statement : Statement) (uses : ∀ number ∈ statement.uses, number ∈ seen)
    (stays : ∀ own outer, statement.scope (own :: outer) = some ((left ++ own) :: outer)) :
    Outline seen left statement.text statement.placements statement.names [statement] := by
  refine ⟨flatMap_singleton _ _, flatMap_singleton _ _, flatMap_singleton _ _,
    fun own outer declared => ?_⟩
  rw [foldlM_cons, Statement.enter, if_pos fun number used => declared number (uses number used), stays]
  rfl

theorem snoc (outline : Outline seen left code places names statements) (statement : Statement)
    (uses : ∀ number ∈ statement.uses, number ∈ seen)
    (stays : ∀ blocks, statement.scope blocks = some blocks)
    (plain : statement.placements = [] ∧ statement.names = []) :
    Outline seen left (code ++ statement.text) places names (statements ++ [statement]) := by
  have last : Outline seen [] _ _ _ _ := of_statement statement uses fun _ _ => stays _
  have whole := outline.append last fun _ => .inr
  rwa [plain.1, plain.2, append_nil, append_nil] at whole

theorem block (block : Block) (uses : ∀ number ∈ (Statement.opens block).uses, number ∈ seen)
    (outline : Outline seen left code places names statements) :
    Outline seen [] (block.opening ++ code ++ block.closing) places
      ((Statement.opens block).names ++ names) (.opens block :: statements ++ [.closes block]) := by
  refine ⟨?_, ?_, ?_, fun own outer declared => ?_⟩
  · rw [flatMap_append, flatMap_cons, outline.text, flatMap_singleton]
    rfl
  · rw [flatMap_append, flatMap_cons, outline.places]
    exact append_nil _
  · rw [flatMap_append, flatMap_cons, outline.names]
    exact append_nil _
  · have opened : Statement.enter (own :: outer) (.opens block) = some ([] :: own :: outer) :=
      if_pos fun number used => declared number (uses number used)
    have ran := outline.runs [] (own :: outer) fun number member => by
      rw [flatten_cons, nil_append]
      exact declared number member
    rw [foldlM_append, foldlM_cons, opened, Option.bind_eq_bind, Option.bind_some, ran]
    rfl

end Outline

private theorem calls_outline (number : Nat) (calls : List Call) :
    Outline (some number) []
      (calls.flatMap fun call =>
        widgetVariable number ++ ['.'] ++ call.name ++ ['('] ++ call.args ++ ");\n".toList)
      [] (calls.map (·.name)) (calls.map (.call number)) := by
  induction calls with
  | nil => exact .nil _
  | cons made rest ih =>
    have first : Outline (some number) [] _ _ _ _ :=
      .of_statement (.call number made) (by simp [Statement.uses]) fun _ _ => rfl
    exact first.append ih fun _ => .inr

theorem creation_outline (emission : Emission) (number : Nat) (holder : Holder) (widget : Widget)
    (html : List Text) :
    ∃ statements, Outline holder.number? [number]
      (creation emission (widgetVariable number) holder.text? widget html)
      [⟨number, holder.number?, widget⟩] (widget.calls.map (·.name)) statements := by
  have created : Outline holder.number? [number] _ _ _ _ :=
    .of_statement (.create number holder widget html) (by simp [Statement.uses]) fun _ _ => rfl
  have called := calls_outline number widget.calls
  unfold creation
  split
  · rename_i key _ _
    have collected := called.snoc (.collect number key) (by simp [Statement.uses]) (fun _ => rfl) ⟨rfl, rfl⟩
    rw [append_assoc]
    exact ⟨_, created.under collected⟩
  · rw [append_nil]
    exact ⟨_, created.under called⟩

def Outlines (emission : Emission) (nodes : List Node) : Prop :=
  ∀ (holder : Holder) {top branch : Bool} {next : Nat} {code : Text} {after : Nat},
    siblings emission holder.text? top branch next nodes = .ok (code, after) →
    after = next + (placementsAll holder.number? top next nodes).length ∧
    Outlined holder.number? code
      (placementsAll holder.number? top next nodes) ((allNodes nodes).flatMap Node.names)

variable {emission : Emission} {holder : Holder} {top : Bool} {next after : Nat}

private theorem append_assoc₅ (first second third fourth fifth : Text) :
    first ++ second ++ third ++ fourth ++ fifth = first ++ (second ++ third ++ fourth ++ fifth) := by
  simp only [append_assoc]

theorem widget_outlined {widget : Widget} {depth line : Nat} {children : List Node} {html : List Text}
    (below : Outlines emission children)
    (emitted : single emission holder.text? top next ⟨.widget widget, depth, line, children, html⟩ =
      .ok (code, after)) :
    ∃ filling, code =
        creation emission (widgetVariable next) holder.text? widget html ++ filling ∧
      after = next + 1 + (placementsAll (if widget.isMatrix || top then none else some next) false
        (next + 1) children).length ∧
      Outlined (some next) filling (placementsAll (if widget.isMatrix || top then none else some next)
        false (next + 1) children) ((allNodes children).flatMap Node.names) := by
  rw [single] at emitted
  dsimp only at emitted
  -- A matrix hands its child over as a function, a widget at the top begins and ends, and any other one
  -- is named by its children.
  split at emitted
  · rename_i matrix
    obtain ⟨⟨item, last⟩, itemEmitted, emitted⟩ := bind_eq_ok.mp emitted
    cases emitted
    have rendered : siblings emission Holder.item.text? false false (next + 1) children = .ok (item, last) := by
      rcases matrixItem_cases emission line children.length (next + 1) children with
        ⟨_, _, _, same⟩ | ⟨_, same⟩
      · exact same.symm.trans itemEmitted
      · cases same.symm.trans itemEmitted
    obtain ⟨counted, left, statements, outline⟩ := below .item rendered
    rw [matrix, Bool.true_or, if_pos rfl]
    refine ⟨_, ?_, counted, _, _, Outline.block (.item next) ?_ (outline.mono ?_)⟩
    · exact append_assoc₅ _ _ _ _ _
    · simp [Statement.uses]
    · simp [Holder.number?]
  · rename_i plain
    rw [Bool.eq_false_iff.mpr plain, Bool.false_or]
    split at emitted
    · rename_i childless
      cases emitted
      rw [isEmpty_iff.mp childless]
      exact ⟨[], (append_nil _).symm, rfl, _, _, .nil _⟩
    · split at emitted
      · rename_i atTop
        obtain ⟨⟨inner, last⟩, innerEmitted, emitted⟩ := bind_eq_ok.mp emitted
        cases emitted
        obtain ⟨counted, left, statements, outline⟩ := below .nothing innerEmitted
        have begun : Outline (some next) [] _ _ _ _ :=
          .of_statement (.begins next) (by simp [Statement.uses]) fun _ _ => rfl
        have filled := (begun.append outline (by simp [Holder.number?])).snoc (.ends next)
          (by simp [Statement.uses]) (fun _ => rfl) ⟨rfl, rfl⟩
        rw [atTop, if_pos rfl]
        refine ⟨_, ?_, counted, _, _, filled⟩
        rw [append_assoc _ _ ".end();\n".toList]
        exact append_assoc₅ _ _ _ _ _
      · rename_i inside
        obtain ⟨⟨inner, last⟩, innerEmitted, emitted⟩ := bind_eq_ok.mp emitted
        cases emitted
        obtain ⟨counted, outlined⟩ := below (.widget next) innerEmitted
        rw [if_neg inside]
        exact ⟨inner, rfl, counted, outlined⟩

private theorem single_outlined {node : Node} (below : Outlines emission node.children)
    (emitted : single emission holder.text? top next node = .ok (code, after)) :
    after = next + (node.placements holder.number? top next).length ∧
    Outlined holder.number? code (node.placements holder.number? top next)
      (node.names ++ (allNodes node.children).flatMap Node.names) := by
  obtain ⟨kind, depth, line, children, html⟩ := node
  cases kind with
  | widget widget =>
    obtain ⟨filling, rfl, rfl, _, _, fills⟩ := widget_outlined below emitted
    obtain ⟨_, creates⟩ := creation_outline emission next holder widget html
    rw [Node.placements]
    exact ⟨by rw [length_cons, Nat.add_assoc, Nat.add_comm 1], _, _, creates.under fills⟩
  | control control =>
    rw [single] at emitted
    obtain ⟨⟨inner, last⟩, innerEmitted, emitted⟩ := bind_eq_ok.mp emitted
    cases emitted
    obtain ⟨counted, left, _, outline⟩ := below holder innerEmitted
    rw [Node.placements]
    have filled : ∃ statements, Outline holder.number? left
        (inner ++ if html.isEmpty then [] else (Statement.inserts holder html).text)
        (placementsAll holder.number? top next children)
        ((allNodes children).flatMap Node.names) statements := by
      split
      · rw [append_nil]
        exact ⟨_, outline⟩
      · exact ⟨_, outline.snoc (.inserts holder html) (by simp [Statement.uses]) (fun _ => rfl) ⟨rfl, rfl⟩⟩
    obtain ⟨_, filled⟩ := filled
    have whole := filled.block (.control control) (forall_mem_nil _)
    rw [← append_assoc] at whole
    exact ⟨counted, _, _, whole⟩
  | block name link =>
    rw [single] at emitted
    split at emitted
    · cases emitted
    · split at emitted
      · cases emitted
      · rename_i childless
        cases emitted
        simp only [Bool.not_eq_true', Bool.not_eq_false, List.isEmpty_iff] at childless
        subst childless
        exact ⟨rfl, [], _, .of_statement (.links name holder) (by simp [Statement.uses]) fun _ _ => rfl⟩

private theorem outlines (emission : Emission) (nodes : List Node) : Outlines emission nodes := by
  induction nodes using forest_induct with
  | nil =>
    intro holder top branch next code after emitted
    rw [siblings] at emitted
    cases emitted
    exact ⟨rfl, _, _, .nil _⟩
  | cons node rest below later =>
    intro holder top branch next code after emitted
    rw [siblings] at emitted
    split at emitted
    · cases emitted
    · obtain ⟨⟨first, middle⟩, firstEmitted, emitted⟩ := bind_eq_ok.mp emitted
      obtain ⟨⟨others, last⟩, othersEmitted, emitted⟩ := bind_eq_ok.mp emitted
      cases emitted
      obtain ⟨rfl, _, _, own⟩ := single_outlined below firstEmitted
      obtain ⟨rfl, _, _, following⟩ := later holder othersEmitted
      rw [placementsAll, allNodes, Node.all_eq, flatMap_append, flatMap_cons]
      exact ⟨by rw [length_append, Nat.add_assoc], _, _, own.append following fun _ => .inr⟩

theorem functionHead : "function __lxBlock_".toList = "function ".toList ++ "__lxBlock_".toList := by
  decide

private theorem blockFunctions_outlined {roots : List Node}
    (emitted : blockFunctions emission next roots = .ok (code, after)) :
    after = next +
      (placementsAll none false next ((definitions roots).flatMap (·.children))).length ∧
    Outlined none code (placementsAll none false next ((definitions roots).flatMap (·.children)))
      ((allNodes (definitions roots)).flatMap Node.names) := by
  induction roots generalizing next code after with
  | nil =>
    cases emitted
    exact ⟨rfl, _, _, .nil _⟩
  | cons node rest ih =>
    rw [blockFunctions] at emitted
    split at emitted
    · rename_i name defines
      obtain ⟨⟨body, middle⟩, bodyEmitted, emitted⟩ := bind_eq_ok.mp emitted
      obtain ⟨⟨others, last⟩, othersEmitted, emitted⟩ := bind_eq_ok.mp emitted
      cases emitted
      obtain ⟨rfl, _, _, inner⟩ := outlines emission node.children .parent bodyEmitted
      obtain ⟨rfl, _, _, following⟩ := ih othersEmitted
      have own : node.names = [functionName name] := by rw [Node.names, defines]
      have whole := (inner.block (.function name) (forall_mem_nil _)).append following fun _ => .inr
      rw [definitions_cons_of_block defines, flatMap_cons, placementsAll_append, allNodes, Node.all_eq, flatMap_append, flatMap_cons, own]
      rw [functionHead, append_assoc _ _ name]
      exact ⟨by rw [length_append, Nat.add_assoc]; rfl, _, _, whole⟩
    · rename_i other
      rw [definitions_cons_of_other other]
      exact ih emitted

/-- The script of a forest is the text of statements that create its widgets in order and hold its names
as they are. They use only variables declared before in an open block. -/
theorem emit_statements {file : String} {output : Option Text} {roots : List Node} {script : Text}
    (emitted : emit file output roots = .ok script) :
    ∃ statements : List Statement, statements.flatMap Statement.text = script ∧
      statements.flatMap Statement.placements = placements roots ∧
      statements.flatMap Statement.names =
        (allNodes (definitions roots ++ contents roots)).flatMap Node.names ∧
      statements.foldlM Statement.enter [] = some [] := by
  unfold emit at emitted
  obtain ⟨blocks, _, emitted⟩ := bind_eq_ok.mp emitted
  obtain ⟨⟨functions, next⟩, functionsEmitted, emitted⟩ := bind_eq_ok.mp emitted
  obtain ⟨⟨body, after⟩, bodyEmitted, written⟩ := bind_eq_ok.mp emitted
  obtain ⟨rfl, _, before, first⟩ := blockFunctions_outlined functionsEmitted
  obtain ⟨_, _, behind, second⟩ := outlines _ _ .nothing bodyEmitted
  have whole := first.append second fun _ => .inr
  rw [Nat.zero_add] at whole
  refine ⟨.opens (.script output) :: (before ++ behind) ++ [.closes (.script output)], ?_, ?_, ?_, ?_⟩
  · rw [flatMap_append, flatMap_cons, whole.text]
    cases output with
    | none =>
      cases written
      rfl
    | some name =>
      cases written
      rfl
  · rw [flatMap_append, flatMap_cons, whole.places]
    exact append_nil _
  · rw [flatMap_append, flatMap_cons, whole.names, allNodes_append, flatMap_append]
    exact append_nil _
  · have opened : Statement.enter [] (.opens (.script output)) = some [[]] := rfl
    rw [foldlM_append, foldlM_cons, opened, Option.bind_eq_bind, Option.bind_some,
      whole.runs [] [] (by simp)]
    rfl

/-! ### Variables -/

def Node.widget? (node : Node) : Option Widget :=
  match node.kind with
  | .widget widget => some widget
  | _ => none

theorem placementsAll_numbered (nodes : List Node) (around : Option Nat) (top : Bool) (next : Nat) :
    (placementsAll around top next nodes).map (·.number) =
        range' next (placementsAll around top next nodes).length ∧
      (placementsAll around top next nodes).map (·.widget) = (allNodes nodes).filterMap Node.widget? := by
  induction nodes using forest_induct generalizing around top next with
  | nil => exact ⟨rfl, rfl⟩
  | cons node rest below later =>
    have own : (node.placements around top next).map (·.number) =
          range' next (node.placements around top next).length ∧
        (node.placements around top next).map (·.widget) =
          node.widget?.toList ++ (allNodes node.children).filterMap Node.widget? := by
      obtain ⟨kind, depth, line, children, html⟩ := node
      cases kind with
      | widget widget =>
        have inner := below (if widget.isMatrix || top then none else some next) false (next + 1)
        rw [Node.placements, map_cons, map_cons, length_cons, range'_succ, inner.1, inner.2]
        exact ⟨rfl, rfl⟩
      | control control => exact below around top next
      | block name link => exact below none false next
    have others := later around top (next + (node.placements around top next).length)
    rw [placementsAll, allNodes, Node.all_eq, map_append, map_append, length_append, own.1, own.2,
      others.1, others.2, filterMap_append, filterMap_cons]
    refine ⟨range'_append_1, ?_⟩
    cases node.widget? <;> rfl

def box (children : List Node) : Node :=
  { kind := .widget { tag := "Box".toList, constructor := "lx.Box".toList }, depth := 0, line := 0,
    children, html := [] }

def house : List Node :=
  [box [{ kind := .control (.loop "i to 2".toList), depth := 0, line := 0, children := [box [box []]],
          html := [] }],
   { kind := .block "b".toList false, depth := 0, line := 0, children := [box []], html := [] }]

end PageScript.Template
