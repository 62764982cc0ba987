import PageScript.Proofs.Outcome
import PageScript.Proofs.Template.Forest
import PageScript.Proofs.Template.Loop

/-! Brackets of template scripts (`emit_closed`). -/

open List

namespace PageScript.Template

open Script

variable {parent : Option Text} {emission : Emission}

def Widget.fragments (widget : Widget) : List Text :=
  widget.constructor :: widget.config.toList ++ widget.data.toList ++
    widget.calls.flatMap fun call => [call.name, call.args]

def Control.fragments : Control → List Text
  | .whenTrue condition | .elseWhen condition => [condition]
  | .otherwise => []
  | .loop range => [range]

/-- The texts of a node that its script holds as they stand. -/
def Node.fragments (node : Node) : List Text :=
  match node.kind with
  | .widget widget => widget.fragments
  | .control control => control.fragments
  | .block name _ => [name]

def Node.range? (node : Node) : Option Text :=
  match node.kind with
  | .control (.loop range) => some range
  | _ => none

structure Node.Closed (node : Node) : Prop where
  fragments : ∀ fragment ∈ node.fragments, Script.Closed fragment
  range : ∀ range ∈ node.range?, '\n' ∉ range

instance (node : Node) : Decidable node.Closed :=
  decidable_of_iff ((∀ fragment ∈ node.fragments, Script.Closed fragment) ∧
      ∀ range ∈ node.range?, '\n' ∉ range)
    ⟨fun ⟨fragments, range⟩ => ⟨fragments, range⟩, fun ⟨fragments, range⟩ => ⟨fragments, range⟩⟩

private theorem digits_neutral (number : Nat) : Neutral (Nat.toDigits 10 number) :=
  fun _ member => isNeutral_of_class Char.isDigit (by decide)
    (Nat.isDigit_of_mem_toDigits (by decide) (by decide) member)

private theorem widgetVariable_neutral (number : Nat) : Neutral (widgetVariable number) :=
  Neutral.append (by decide) (digits_neutral number)

private theorem afterNumber_eq_some {text rest : Text} (found : afterNumber text = some rest) :
    ∃ number, text = number ++ rest ∧ Neutral number := by
  have digits {taken : Text} (each : ∀ c ∈ taken, isDigit c = true) : Neutral taken :=
    fun c member => isNeutral_of_class isDigit (by decide) (each c member)
  unfold afterNumber at found
  dsimp only at found
  obtain ⟨⟨whole, after⟩, wholeFound, found⟩ := Option.bind_eq_some_iff.mp found
  obtain ⟨unsigned_eq, wholeDigits⟩ := Text.run1?_eq_some wholeFound
  -- The digits after the sign, and after the point if digits follow it.
  have unsigned : ∃ number, whole ++ after = number ++ rest ∧ Neutral number := by
    dsimp only at found
    split at found
    · rename_i more
      split at found
      · rename_i part after partFound
        cases found
        obtain ⟨rfl, partDigits⟩ := Text.run1?_eq_some partFound
        refine ⟨whole ++ ['.'] ++ part, by simp, ?_⟩
        exact ((digits wholeDigits).append (by decide)).append (digits partDigits)
      · cases found
        exact ⟨whole, rfl, digits wholeDigits⟩
    · cases found
      exact ⟨whole, rfl, digits wholeDigits⟩
  obtain ⟨number, number_eq, neutral⟩ := unsigned
  rw [← unsigned_eq] at number_eq
  split at number_eq
  · have signed : Neutral (['-'] ++ number) := Neutral.append (by decide) neutral
    exact ⟨'-' :: number, by rw [number_eq, cons_append], signed⟩
  · exact ⟨number, number_eq, neutral⟩

private theorem geometryText_solid (value : Text) : Solid (geometryText value) := by
  unfold geometryText
  split
  · rename_i plain
    obtain ⟨number, whole, neutral⟩ := afterNumber_eq_some (beq_iff_eq.mp plain)
    rw [whole, append_nil]
    exact neutral.solid
  · exact quoted_solid value

private theorem bracketList_solid {items : List Text} (each : ∀ item ∈ items, Solid item) :
    Solid (bracketList items) := by
  have joined : Script.Closed (Text.join [','] items) :=
    closed_join (fun slash => by cases slash <;> rfl) fun item member => (each item member).closed
  have bracketed : Solid (['['] ++ Text.join [','] items ++ [']']) :=
    joined.between rfl fun slash => by cases slash <;> rfl
  exact bracketed

theorem labelled_closed {label : String} {value : Option Text} (neutral : Neutral label.toList)
    (closed : ∀ text ∈ value, Script.Closed text) :
    ∀ setting ∈ labelled label value, Script.Closed setting := by
  cases value with
  | none => exact forall_mem_nil _
  | some value =>
    rw [labelled, forall_mem_singleton]
    exact neutral.solid.append_closed (closed value rfl)

private theorem settings_closed {widget : Widget} (html : List Text)
    (parented : ∀ name ∈ parent, Neutral name)
    (data : ∀ text ∈ widget.data, Script.Closed text)
    (config : ∀ text ∈ widget.config, Script.Closed text) :
    ∀ setting ∈ settings parent widget html, Script.Closed setting := by
  have quoted (value : Option Text) : ∀ text ∈ value.map Json.quoted, Script.Closed text := by
    intro text member
    obtain ⟨inner, _, rfl⟩ := Option.map_eq_some_iff.mp member
    exact (quoted_solid inner).closed
  have listed (items : List Text) (each : ∀ item ∈ items, Solid item) :
      ∀ text ∈ some (bracketList items), Script.Closed text := by
    intro text member
    rw [← Option.mem_some_iff.mp member]
    exact (bracketList_solid each).closed
  simp only [settings, forall_mem_append]
  refine ⟨⟨⟨⟨⟨⟨⟨⟨⟨?_, ?_⟩, ?_⟩, ?_⟩, ?_⟩, ?_⟩, ?_⟩, ?_⟩, ?_⟩, ?_⟩
  · exact labelled_closed (by decide) fun name member => (parented name member).solid.closed
  · exact labelled_closed (by decide) (quoted widget.key)
  · split
    · exact forall_mem_nil _
    · refine labelled_closed (by decide) (listed _ fun item member => ?_)
      obtain ⟨css, _, rfl⟩ := mem_map.mp member
      exact quoted_solid css
  · split
    · refine labelled_closed (by decide) (listed _ fun item member => ?_)
      obtain ⟨value, _, rfl⟩ := mem_map.mp member
      exact geometryText_solid value
    · split
      · rw [forall_mem_singleton]
        exact Solid.closed rfl
      · exact forall_mem_nil _
  · exact labelled_closed (by decide) (quoted widget.field)
  · exact labelled_closed (by decide) (quoted widget.matrix)
  · exact labelled_closed (by decide) (quoted widget.text)
  · exact labelled_closed (by decide) data
  · exact labelled_closed (by decide) fun text member => config text (Option.mem_filter_iff.mp member).1
  · split
    · exact forall_mem_nil _
    · exact labelled_closed (by decide) (quoted (some _))

private theorem creation_solid {name : Text} {widget : Widget}
    (html : List Text) (named : Neutral name) (parented : ∀ name ∈ parent, Neutral name)
    (closed : ∀ fragment ∈ widget.fragments, Script.Closed fragment) :
    Solid (creation emission name parent widget html) := by
  simp only [Widget.fragments, forall_mem_append, forall_mem_cons, forall_mem_flatMap,
    Option.mem_toList] at closed
  obtain ⟨⟨⟨constructor, config⟩, data⟩, calls⟩ := closed
  have settingsClosed : Script.Closed (Text.join ", ".toList (settings parent widget html)) :=
    closed_join (fun slash => by cases slash <;> rfl) (settings_closed html parented data config)
  refine Solid.append (Solid.append ?_ ?_) ?_
  · obtain ⟨slash, constructed⟩ := constructor.run []
    obtain ⟨slash', joined⟩ := settingsClosed.run ['}', ')']
    have opening : Neutral ("const ".toList ++ name ++ " = new ".toList) :=
      (Neutral.append (by decide) named).append (by decide)
    refine Scan.run_trans (Scan.run_trans (Scan.run_trans
      (Scan.run_trans opening.solid constructed) ?_) joined) ?_
    · cases slash <;> rfl
    · cases slash' <;> rfl
  · refine Solid.flatMap fun call member => ?_
    obtain ⟨slash, called⟩ := (calls call member).1.run []
    obtain ⟨slash', applied⟩ := (calls call member).2.1.run [')']
    have opening : Neutral (name ++ ['.']) := named.append (by decide)
    refine Scan.run_trans (Scan.run_trans (Scan.run_trans
      (Scan.run_trans opening.solid called) ?_) applied) ?_
    · cases slash <;> rfl
    · cases slash' <;> rfl
  · split
    · rename_i key _ _
      have separator : Neutral ", ".toList := by decide
      exact Scan.run_trans (Scan.run_trans (Scan.run_trans (Scan.run_trans rfl
        ((quoted_solid key).run [')'])) (separator.solid.run [')'])) (named.solid.run [')'])) rfl
    · exact Solid.nil

private theorem controlHead_opens {control : Control}
    (closed : ∀ fragment ∈ control.fragments, Script.Closed fragment)
    (flat : ∀ range, control = .loop range → '\n' ∉ range) :
    Scan.start.run (controlHead control) = some ⟨.code false, ['}']⟩ := by
  cases control with
  | whenTrue condition =>
    obtain ⟨slash, ran⟩ := (closed condition mem_cons_self).run [')']
    refine Scan.run_trans (Scan.run_trans rfl ran) ?_
    cases slash <;> rfl
  | elseWhen condition =>
    obtain ⟨slash, ran⟩ := (closed condition mem_cons_self).run [')']
    refine Scan.run_trans (Scan.run_trans rfl ran) ?_
    cases slash <;> rfl
  | otherwise => rfl
  | loop range => exact loopHead_opens (closed range mem_cons_self) (flat range rfl)

private theorem neutral_of_mem_some {name : Text} (neutral : Neutral name) :
    ∀ parent ∈ some name, Neutral parent := by
  intro parent member
  rw [← Option.mem_some_iff.mp member]
  exact neutral

private theorem neutral_of_mem_none : ∀ parent ∈ (none : Option Text), Neutral parent := by
  simp

private theorem getD_neutral (parented : ∀ name ∈ parent, Neutral name)
    {other : Text} (neutral : Neutral other) : Neutral (parent.getD other) := by
  cases parent with
  | none => exact neutral
  | some name => exact parented name rfl

mutual

theorem siblings_solid (emission : Emission) {parent : Option Text}
    (parented : ∀ name ∈ parent, Neutral name) (top branch : Bool) (next : Nat) :
    (nodes : List Node) → (∀ node ∈ allNodes nodes, node.Closed) → {code : Text} → {after : Nat} →
      siblings emission parent top branch next nodes = .ok (code, after) → Solid code
  | [], _, code, after, emitted => by
      rw [siblings] at emitted
      cases emitted
      exact Solid.nil
  | node :: rest, closed, code, after, emitted => by
      obtain ⟨⟨own, below⟩, others⟩ := forall_allNodes_cons.mp closed
      rw [siblings] at emitted
      split at emitted
      · cases emitted
      · obtain ⟨⟨first, middle⟩, firstEmitted, emitted⟩ := bind_eq_ok.mp emitted
        obtain ⟨⟨later, last⟩, laterEmitted, emitted⟩ := bind_eq_ok.mp emitted
        cases emitted
        exact (single_solid emission parented top next node own below firstEmitted).append
          (siblings_solid emission parented top _ middle rest others laterEmitted)

theorem single_solid (emission : Emission) {parent : Option Text}
    (parented : ∀ name ∈ parent, Neutral name) (top : Bool) (next : Nat) :
    (node : Node) → node.Closed → (∀ inner ∈ allNodes node.children, inner.Closed) →
      {code : Text} → {after : Nat} →
      single emission parent top next node = .ok (code, after) → Solid code
  | ⟨.widget widget, depth, line, children, html⟩, own, below, code, after, emitted => by
      have named := widgetVariable_neutral next
      have created : Solid (creation emission (widgetVariable next) parent widget html) :=
        creation_solid html named parented own.fragments
      rw [single] at emitted
      dsimp only at emitted
      split at emitted
      · obtain ⟨⟨item, middle⟩, itemEmitted, emitted⟩ := bind_eq_ok.mp emitted
        cases emitted
        rcases matrixItem_cases emission line children.length (next + 1) children with
          ⟨_, _, _, same⟩ | ⟨_, same⟩
        all_goals rw [same] at itemEmitted
        · have rendered := siblings_solid emission (neutral_of_mem_some (by decide)) false false
            (next + 1) children below itemEmitted
          exact Scan.run_trans (Scan.run_trans (Scan.run_trans (created.append named.solid) rfl)
            (rendered.run ['}', ')'])) rfl
        · cases itemEmitted
      · split at emitted
        · cases emitted
          exact created
        · split at emitted
          · obtain ⟨⟨inner, middle⟩, innerEmitted, emitted⟩ := bind_eq_ok.mp emitted
            cases emitted
            have filled := siblings_solid emission neutral_of_mem_none false false
              (next + 1) children below innerEmitted
            have begun : Solid ".begin();\n".toList := rfl
            have ended : Solid ".end();\n".toList := rfl
            exact ((((created.append named.solid).append begun).append filled).append
              named.solid).append ended
          · obtain ⟨⟨inner, middle⟩, innerEmitted, emitted⟩ := bind_eq_ok.mp emitted
            cases emitted
            exact created.append (siblings_solid emission (neutral_of_mem_some named) false false
              (next + 1) children below innerEmitted)
  | ⟨.control control, depth, line, children, html⟩, own, below, code, after, emitted => by
      rw [single] at emitted
      obtain ⟨⟨inner, middle⟩, innerEmitted, emitted⟩ := bind_eq_ok.mp emitted
      cases emitted
      have filled := siblings_solid emission parented top false next children below innerEmitted
      have head := controlHead_opens own.fragments fun range same => own.range range (by rw [same]; rfl)
      refine Scan.run_trans (Scan.run_trans (Scan.run_trans head (filled.run ['}']))
        (Solid.run ?_ ['}'])) rfl
      split
      · exact Solid.nil
      · have holder : Neutral (parent.getD "lx".toList) := getD_neutral parented (by decide)
        exact Scan.run_trans (Scan.run_trans (Scan.run_trans holder.solid rfl)
          ((quoted_solid _).run [')'])) rfl
  | ⟨.block name link, depth, line, children, html⟩, own, below, code, after, emitted => by
      rw [single] at emitted
      split at emitted
      · cases emitted
      · split at emitted
        · cases emitted
        · cases emitted
          obtain ⟨slash, named⟩ := (own.fragments name mem_cons_self).run []
          have holder : Neutral (parent.getD "null".toList) := getD_neutral parented (by decide)
          refine Scan.run_trans (Scan.run_trans (Scan.run_trans (Scan.run_trans rfl named) ?_)
            (holder.solid.run [')'])) rfl
          cases slash <;> rfl

end

private theorem blockFunctions_solid {next : Nat} {roots : List Node}
    (closed : ∀ node ∈ allNodes roots, node.Closed) {code : Text} {after : Nat}
    (emitted : blockFunctions emission next roots = .ok (code, after)) : Solid code := by
  induction roots generalizing next code with
  | nil =>
    cases emitted
    exact Solid.nil
  | cons node rest ih =>
    obtain ⟨⟨own, below⟩, others⟩ := forall_allNodes_cons.mp closed
    rw [blockFunctions] at emitted
    split at emitted
    · rename_i name defines
      obtain ⟨⟨body, middle⟩, bodyEmitted, emitted⟩ := bind_eq_ok.mp emitted
      obtain ⟨⟨later, last⟩, laterEmitted, emitted⟩ := bind_eq_ok.mp emitted
      cases emitted
      have fragment : name ∈ node.fragments := by
        rw [Node.fragments, defines]
        exact mem_cons_self
      obtain ⟨slash, named⟩ := (own.fragments name fragment).run []
      have filled := siblings_solid emission (neutral_of_mem_some (by decide)) false false next
        node.children below bodyEmitted
      refine Solid.append ?_ (ih others laterEmitted)
      refine Scan.run_trans (Scan.run_trans (Scan.run_trans (Scan.run_trans rfl named) ?_)
        (filled.run ['}'])) rfl
      cases slash <;> rfl
    · exact ih others emitted

def assignment : Option Text → Text
  | some name => "const ".toList ++ name ++ " = ".toList
  | none => []

theorem function_closed {before lead body trail : Text} (opening : Solid before) (solid : Solid body)
    (leads : Scan.run ⟨.code false, ['}']⟩ lead = some ⟨.code false, ['}']⟩)
    (trails : Scan.run ⟨.code false, ['}']⟩ trail = some Scan.start) :
    Script.Closed (before ++ "(function()\x7b".toList ++ (lead ++ body ++ trail) ++ ")();".toList) ∧
      Script.matching? (before ++ "(function()\x7b".toList ++ (lead ++ body ++ trail) ++ ")();".toList)
        (Text.byteLength before) =
          some (Text.byteLength (before ++ "(function()\x7b".toList ++ (lead ++ body ++ trail))) := by
  have inner : Solid ("function()\x7b".toList ++ (lead ++ body ++ trail)) :=
    Scan.run_trans rfl (Scan.run_trans (Scan.run_trans leads (solid.run ['}'])) trails)
  have called : Solid (['('] ++ ("function()\x7b".toList ++ (lead ++ body ++ trail)) ++
      ")();".toList) :=
    inner.closed.between rfl fun slash => by cases slash <;> rfl
  have matched := inner.closed.matching? before "();".toList
  rw [append_assoc before, append_assoc before]
  exact ⟨(opening.append called).closed, matched⟩

private theorem script_parts_assoc (first name second opening lead body trail call : Text) :
    first ++ name ++ (second ++ (opening ++ lead)) ++ body ++ (trail ++ call) =
      first ++ name ++ second ++ opening ++ (lead ++ body ++ trail) ++ call := by
  simp only [append_assoc]

/-- If the fragments of a template are closed then so is its script, and the parenthesis around the
function of the script is closed right before the call. -/
theorem emit_closed {file : String} {output : Option Text} {roots : List Node} {script : Text}
    (emitted : emit file output roots = .ok script) (named : ∀ name ∈ output, Script.Closed name)
    (closed : ∀ node ∈ allNodes roots, node.Closed) :
    Script.Closed script ∧ ∃ body,
      script = assignment output ++ "(function()\x7b".toList ++ body ++ ")();".toList ∧
      Script.matching? script (Text.byteLength (assignment output)) =
        some (Text.byteLength (assignment output ++ "(function()\x7b".toList ++ body)) := by
  unfold emit at emitted
  obtain ⟨blocks, _, emitted⟩ := bind_eq_ok.mp emitted
  obtain ⟨⟨functions, next⟩, functionsEmitted, emitted⟩ := bind_eq_ok.mp emitted
  obtain ⟨⟨code, after⟩, codeEmitted, emitted⟩ := bind_eq_ok.mp emitted
  have below : ∀ node ∈ allNodes (roots.filter (! ·.isDefinition)), node.Closed := by
    intro node member
    obtain ⟨root, kept, within⟩ := mem_allNodes.mp member
    exact closed node (mem_allNodes.mpr ⟨root, (List.mem_filter.mp kept).1, within⟩)
  have body := (blockFunctions_solid closed functionsEmitted).append
    (siblings_solid _ neutral_of_mem_none true false next _ below codeEmitted)
  cases output with
  | none =>
      have whole := function_closed Solid.nil body (rfl : Scan.run _ ['\n'] = _)
        (rfl : Scan.run _ ['}'] = _)
      have same : script = [] ++ "(function()\x7b".toList ++ (['\n'] ++ (functions ++ code) ++ ['}']) ++
          ")();".toList := by
        cases emitted
        simp only [List.append_assoc]
        rfl
      rw [← same] at whole
      exact ⟨whole.1, _, same, whole.2⟩
  | some name =>
      obtain ⟨lead, start, leads⟩ : ∃ lead, " = (function()\x7b\nconst __out = \x7b\x7d;\nfunction _out(k, w) \x7b __out[k] = w; \x7d\n".toList =
          " = ".toList ++ ("(function()\x7b".toList ++ lead) ∧
          Scan.run ⟨.code false, ['}']⟩ lead = some ⟨.code false, ['}']⟩ :=
        ⟨"\nconst __out = \x7b\x7d;\nfunction _out(k, w) \x7b __out[k] = w; \x7d\n".toList,
          by decide +kernel, rfl⟩
      obtain ⟨trail, ending, trails⟩ : ∃ trail, "return __out;\n\x7d)();".toList =
          trail ++ ")();".toList ∧ Scan.run ⟨.code false, ['}']⟩ trail = some Scan.start :=
        ⟨"return __out;\n\x7d".toList, by decide +kernel, rfl⟩
      have opening : Solid (assignment (some name)) :=
        (named name rfl).between rfl fun slash => by cases slash <;> rfl
      have whole := function_closed opening body leads trails
      have same : script = assignment (some name) ++ "(function()\x7b".toList ++
          (lead ++ (functions ++ code) ++ trail) ++ ")();".toList := by
        rw [start, ending] at emitted
        cases emitted
        exact script_parts_assoc _ _ _ _ _ _ _ _
      rw [← same] at whole
      exact ⟨whole.1, _, same, whole.2⟩

def unbalanced : List Node :=
  [{ kind := .control (.loop "i from (1 to n)".toList), depth := 0, line := 1, html := [],
     children :=
       [{ kind := .widget
            { tag := "Box".toList, constructor := "lx.Box".toList, key := some "a)]".toList,
              css := ["\x7b".toList], text := some "\"/*".toList, config := some "z: [1]".toList,
              calls := [⟨"hide".toList, "')'".toList⟩] },
          depth := 1, line := 2, children := [], html := ["</b> // \x7d".toList] }] }]

theorem emit_closed_unbalanced :
    (∀ node ∈ allNodes unbalanced, node.Closed) ∧ Script.Closed "page".toList ∧
      ∃ script, emit "page.tpl" (some "page".toList) unbalanced = .ok script ∧
        Script.Closed script ∧ (Script.matching? script 13).isSome = true := by
  have closed : ∀ node ∈ allNodes unbalanced, node.Closed := by decide +kernel
  obtain ⟨script, emitted⟩ : ∃ script,
      emit "page.tpl" (some "page".toList) unbalanced = .ok script := ⟨_, rfl⟩
  obtain ⟨scriptClosed, body, _, matched⟩ := emit_closed emitted (by decide) closed
  refine ⟨closed, by decide, script, emitted, scriptClosed, ?_⟩
  have start : Text.byteLength (assignment (some "page".toList)) = 13 := by decide
  rw [← start, matched]
  rfl

end PageScript.Template
