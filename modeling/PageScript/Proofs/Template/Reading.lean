import Mathlib.Algebra.Ring.Nat
import PageScript.Proofs.Template.Acceptance

/-! Reading a template gives one node for each line that has one (`read_forest`). -/

open List

namespace PageScript.Template

variable {depth base : Nat} {text : Text} {registry : Registry} {file : String} {reading next : Reading}
  {line : SourceLine}

/-- The open nodes of a reader, innermost first: their depths run down to 0 without a gap, and each
one that holds another takes children. -/
inductive Stack : List Node → Prop
  | nil : Stack []
  | cons {node : Node} {outer : List Node} (depth : node.depth = outer.length)
      (complete : node.Complete) (takes : ∀ parent ∈ outer.head?, parent.TakesChild)
      (below : Stack outer) : Stack (node :: outer)

def Rooted (roots : List Node) : Prop :=
  ∀ root ∈ roots, root.depth = 0 ∧ root.Complete

theorem Stack.addChild {node : Node} {outer : List Node} {closed : Option Node}
    (stack : Stack (node :: outer)) (above : ∀ child ∈ closed, Stack (child :: node :: outer)) :
    Stack (node.addChild closed :: outer) := by
  cases closed with
  | none => exact stack
  | some child =>
    cases stack with
    | cons depth complete takes below =>
      cases above child rfl with
      | cons childDepth childComplete childTakes _ =>
        refine .cons depth ?_ takes below
        refine Node.addChild_complete complete childComplete (childTakes node rfl) ?_
        rw [childDepth, depth, length_cons]

theorem Stack.withHtml {owner : Node} {outer : List Node} (stack : Stack (owner :: outer))
    (takes : owner.TakesHtml) (html : List Text) :
    Stack ({ owner with html := html } :: outer) := by
  cases stack with
  | cons depth complete takesChild below =>
    exact .cons depth (complete.withHtml takes html) takesChild below

private theorem closeFrom_stack (depth : Nat) (opened roots : List Node) (closed : Option Node)
    (stack : Stack opened) (rooted : Rooted roots)
    (above : ∀ child ∈ closed, Stack (child :: opened)) (within : depth ≤ opened.length) :
    Stack (closeFrom depth closed opened roots).1 ∧
      Rooted (closeFrom depth closed opened roots).2 ∧
      (closeFrom depth closed opened roots).1.length = depth := by
  induction opened generalizing closed with
  | nil =>
    refine ⟨.nil, ?_, (Nat.le_zero.mp within).symm⟩
    intro root member
    rcases mem_append.mp member with new | earlier
    · cases above root (Option.mem_toList.mp new) with
      | cons outermost complete _ _ => exact ⟨outermost, complete⟩
    · exact rooted root earlier
  | cons node outer ih =>
    have filled := stack.addChild above
    cases filled with
    | cons nodeDepth complete takes below =>
      -- the node is closed into its parent, or everything from here on stays open
      by_cases deep : depth ≤ node.depth
      · rw [closeFrom, if_pos deep]
        have shallow : depth ≤ outer.length := by
          cases stack with
          | cons sameDepth _ _ _ => omega
        refine ih (some (node.addChild closed)) below ?_ shallow
        intro child same
        cases same
        exact .cons nodeDepth complete takes below
      · rw [closeFrom, if_neg deep]
        refine ⟨.cons nodeDepth complete takes below, rooted, ?_⟩
        cases stack with
        | cons sameDepth _ _ _ =>
          rw [length_cons] at within ⊢
          omega

theorem closeTo_stack {opened roots : List Node} (stack : Stack opened) (rooted : Rooted roots)
    (within : depth ≤ opened.length) :
    Stack (closeTo depth opened roots).1 ∧ Rooted (closeTo depth opened roots).2 ∧
      (closeTo depth opened roots).1.length = depth :=
  closeFrom_stack depth opened roots none stack rooted (fun _ empty => nomatch empty) within

private theorem closeFrom_entries (depth : Nat) (opened roots : List Node) (closed : Option Node) :
    entries ((closeFrom depth closed opened roots).2.reverse ++
        (closeFrom depth closed opened roots).1.reverse) =
      entries (roots.reverse ++ opened.reverse ++ closed.toList) := by
  induction opened generalizing closed with
  | nil => cases closed <;> simp [closeFrom]
  | cons node outer ih =>
    have filled : entries (roots.reverse ++ outer.reverse ++ [node.addChild closed]) =
        entries (roots.reverse ++ (node :: outer).reverse ++ closed.toList) := by
      rw [entries_append, entries_addChild, ← entries_append, reverse_cons]
      simp only [append_assoc]
    by_cases deep : depth ≤ node.depth
    · rw [closeFrom, if_pos deep, ih]
      exact filled
    · rw [closeFrom, if_neg deep, reverse_cons, ← append_assoc]
      exact filled

theorem blockTag_eq_ok {link : Bool} {kind : Kind} (tagged : blockTag depth link text = .ok kind) :
    ∃ name rest, lineName text = some (name, rest) ∧ kind = .block name link ∧
      (link = false → depth = 0) := by
  unfold blockTag at tagged
  split at tagged
  · cases tagged
  · rename_i name rest named
    split at tagged
    · cases tagged
    · split at tagged
      · cases tagged
      · rename_i nested
        cases tagged
        exact ⟨name, rest, named, rfl, fun defines => Decidable.not_not.mp fun deep => nested ⟨defines, deep⟩⟩

theorem lineKind_cases {content : Text} {kind : Kind}
    (classified : lineKind registry depth content = .ok (some kind)) :
    (∃ control, kind = .control control) ∨ (∃ link text, blockTag depth link text = .ok kind) ∨
      ∃ tag constructor rest widget, kind = .widget widget ∧
        Widget.applyAll { tag, constructor } (Text.cut lineToken rest) = .ok widget := by
  unfold lineKind at classified
  obtain ⟨word, _, classified⟩ := bind_eq_ok.mp classified
  cases word with
  | some control =>
    cases classified
    exact .inl ⟨control, rfl⟩
  | none =>
    dsimp only at classified
    split at classified
    · obtain ⟨kind, tagged, same⟩ := bind_eq_ok.mp classified
      cases same
      exact .inr (.inl ⟨false, _, tagged⟩)
    · obtain ⟨kind, tagged, same⟩ := bind_eq_ok.mp classified
      cases same
      exact .inr (.inl ⟨true, _, tagged⟩)
    · split at classified
      · cases classified
      · obtain ⟨widget, done, same⟩ := bind_eq_ok.mp classified
        cases same
        exact .inr (.inr ⟨_, _, _, widget, rfl, done⟩)
    · cases classified

private theorem lineKind_definition {content name : Text}
    (classified : lineKind registry depth content = .ok (some (.block name false))) : depth = 0 := by
  rcases lineKind_cases classified with ⟨_, other⟩ | ⟨link, text, tagged⟩ | ⟨_, _, _, _, other, _⟩
  · cases other
  · obtain ⟨_, _, _, same, outermost⟩ := blockTag_eq_ok tagged
    cases same
    exact outermost rfl
  · cases other

theorem Reading.step_cases (done : reading.step registry file base line = .ok next) :
    ∃ depth unit measured, measured = ({ reading with unit } : Reading) ∧
      (measured.swallow? depth line.text = some next ∨
        measured.swallow? depth line.text = none ∧ depth ≤ measured.allowed ∧
          ∃ kind, lineKind registry depth (Text.trim line.text) = .ok kind ∧
            measured.place depth line kind = .ok next) := by
  unfold Reading.step at done
  obtain ⟨⟨depth, unit⟩, _, done⟩ := bind_eq_ok.mp done
  refine ⟨depth, unit, _, rfl, ?_⟩
  dsimp only at done
  cases swallows : ({ reading with unit } : Reading).swallow? depth line.text with
  | some swallowed =>
    rw [swallows] at done
    cases done
    exact .inl rfl
  | none =>
    rw [swallows] at done
    dsimp only at done
    by_cases deep : ({ reading with unit } : Reading).allowed < depth
    · rw [if_pos deep] at done
      cases done
    · rw [if_neg deep] at done
      obtain ⟨kind, classified, placed⟩ := bind_eq_ok.mp done
      exact .inr ⟨rfl, Nat.le_of_not_lt deep, kind, mapError_eq_ok.mp classified,
        mapError_eq_ok.mp placed⟩

theorem Reading.swallow?_eq_some {raw : Text} (swallows : reading.swallow? depth raw = some next) :
    ∃ owner outer kept, reading.opened = owner :: outer ∧ reading.html ≠ none ∧
      next = { reading with opened := { owner with html := owner.html ++ [kept] } :: outer } := by
  unfold Reading.swallow? at swallows
  split at swallows
  · next htmlDepth htmlIndent owner outer mode stacked =>
      by_cases deeper : htmlDepth < depth
      · rw [if_pos deeper] at swallows
        cases swallows
        exact ⟨owner, outer, _, stacked, by simp [mode], rfl⟩
      · rw [if_neg deeper] at swallows
        cases swallows
  · cases swallows

theorem Reading.place_cases {kind : Option Kind} (placed : reading.place depth line kind = .ok next) :
    (∃ own, kind = some own ∧
      (∀ parent ∈ (closeTo depth reading.opened reading.roots).1.head?, parent.TakesChild) ∧
      next = { unit := reading.unit,
               opened := Node.leaf own depth line.number ::
                 (closeTo depth reading.opened reading.roots).1,
               roots := (closeTo depth reading.opened reading.roots).2, last := some depth }) ∨
    (∃ owner outer text indent, (closeTo depth reading.opened reading.roots).1 = owner :: outer ∧
      owner.TakesHtml ∧
      next = { unit := reading.unit, opened := { owner with html := owner.html ++ [text] } :: outer,
               roots := (closeTo depth reading.opened reading.roots).2,
               html := some (depth, indent), last := some depth }) := by
  unfold Reading.place at placed
  generalize closeTo depth reading.opened reading.roots = closed at placed ⊢
  obtain ⟨opened, roots⟩ := closed
  cases kind with
  | some own =>
    refine .inl ⟨own, rfl, ?_⟩
    cases opened with
    | nil =>
      cases placed
      exact ⟨fun parent member => (nomatch member), rfl⟩
    | cons parent outer =>
      obtain ⟨_, accepted, same⟩ := map_eq_ok.mp placed
      refine ⟨?_, same.symm⟩
      intro other member
      cases member
      exact Node.takesChild_of_accepts accepted
  | none =>
    cases opened with
    | nil => cases placed
    | cons owner outer =>
      obtain ⟨_, accepted, same⟩ := map_eq_ok.mp placed
      exact .inr ⟨owner, outer, _, _, rfl, Node.takesHtml_of_accepts accepted, same.symm⟩

/-- What holds of a reader between two lines. Outside raw HTML the innermost node is the last line's;
inside, it is the owner of the HTML, one level above the last line. -/
structure Reading.Sound (reading : Reading) : Prop where
  stack : Stack reading.opened
  rooted : Rooted reading.roots
  outside : reading.html = none → reading.allowed = reading.opened.length
  inside : ∀ depth indent, reading.html = some (depth, indent) →
    depth = reading.opened.length ∧
      ∃ owner outer, reading.opened = owner :: outer ∧ owner.TakesHtml

theorem Reading.Sound.start : Reading.Sound {} :=
  ⟨.nil, fun _ member => (nomatch member), fun _ => rfl, fun _ _ mode => nomatch mode⟩

theorem Reading.Sound.withUnit (sound : reading.Sound) (unit : Option Nat) :
    ({ reading with unit } : Reading).Sound :=
  ⟨sound.stack, sound.rooted, sound.outside, sound.inside⟩

/-- A line of its own leaves no gap in the depths: also after raw HTML it is no deeper than the stack
is high. -/
theorem Reading.Sound.depth_le (sound : reading.Sound) {raw : Text}
    (kept : reading.swallow? depth raw = none) (within : depth ≤ reading.allowed) :
    depth ≤ reading.opened.length := by
  cases mode : reading.html with
  | none =>
    rw [← sound.outside mode]
    exact within
  | some html =>
    obtain ⟨htmlDepth, indent⟩ := html
    obtain ⟨same, owner, outer, stacked, _⟩ := sound.inside htmlDepth indent mode
    rw [← same]
    apply Nat.le_of_not_lt
    intro deeper
    rw [Reading.swallow?, mode, stacked] at kept
    simp only [if_pos deeper] at kept
    cases kept

theorem Reading.Sound.step (sound : reading.Sound)
    (done : reading.step registry file base line = .ok next) : next.Sound := by
  obtain ⟨depth, unit, measured, same, cases⟩ := Reading.step_cases done
  have sound : measured.Sound := by
    rw [same]
    exact sound.withUnit unit
  rcases cases with swallows | ⟨kept, within, kind, classified, placed⟩
  · -- the stack keeps its height, and its innermost node goes on taking HTML
    obtain ⟨owner, outer, text, stacked, inHtml, rfl⟩ := Reading.swallow?_eq_some swallows
    obtain ⟨⟨htmlDepth, indent⟩, mode⟩ := Option.ne_none_iff_exists'.mp inHtml
    obtain ⟨height, _, _, stacked', takes⟩ := sound.inside htmlDepth indent mode
    cases stacked.symm.trans stacked'
    have stack := sound.stack
    rw [stacked] at stack height
    refine ⟨stack.withHtml takes _, sound.rooted, fun outside => absurd outside inHtml, ?_⟩
    intro otherDepth otherIndent other
    cases mode.symm.trans other
    exact ⟨height, _, outer, rfl, takes.widget, takes.block⟩
  · have fits := sound.depth_le kept within
    obtain ⟨stack, rooted, height⟩ := closeTo_stack sound.stack sound.rooted fits
    rcases Reading.place_cases placed with
      ⟨own, rfl, takes, rfl⟩ | ⟨owner, outer, text, indent, stacked, takes, rfl⟩
    · refine ⟨.cons height.symm ?_ takes stack, rooted, ?_, fun _ _ mode => nomatch mode⟩
      · apply Node.leaf_complete
        rintro name rfl
        exact lineKind_definition classified
      · intro _
        change depth + 1 = (closeTo depth measured.opened measured.roots).1.length + 1
        rw [height]
    · rw [stacked] at stack height
      refine ⟨stack.withHtml takes _, rooted, fun outside => (nomatch outside), ?_⟩
      intro htmlDepth htmlIndent mode
      cases mode
      exact ⟨height.symm, _, outer, rfl, takes.widget, takes.block⟩

def Reading.soFar (reading : Reading) : List Node :=
  entries (reading.roots.reverse ++ reading.opened.reverse)

private theorem closeTo_entries (depth : Nat) (opened roots : List Node) :
    entries ((closeTo depth opened roots).2.reverse ++ (closeTo depth opened roots).1.reverse) =
      entries (roots.reverse ++ opened.reverse) := by
  rw [closeTo, closeFrom_entries, Option.toList_none, append_nil]

private theorem entries_top (roots outer : List Node) (top : Node) :
    entries (roots.reverse ++ (top :: outer).reverse) =
      entries (roots.reverse ++ outer.reverse) ++ top.entry :: entries top.children := by
  rw [reverse_cons, ← append_assoc, entries_append, entries_singleton]

theorem Reading.step_entries (done : reading.step registry file base line = .ok next) :
    (∃ kind depth, lineKind registry depth (Text.trim line.text) = .ok (some kind) ∧
      next.soFar = reading.soFar ++ [Node.leaf kind depth line.number]) ∨
    (∃ before owner after text, reading.soFar = before ++ owner :: after ∧
      next.soFar = before ++ { owner with html := owner.html ++ [text] } :: after) := by
  obtain ⟨depth, unit, measured, same, cases⟩ := Reading.step_cases done
  have unchanged : measured.soFar = reading.soFar := by
    rw [same]
    rfl
  rw [← unchanged]
  rcases cases with swallows | ⟨_, _, kind, classified, placed⟩
  · obtain ⟨owner, outer, text, stacked, _, rfl⟩ := Reading.swallow?_eq_some swallows
    refine .inr ⟨entries (measured.roots.reverse ++ outer.reverse), owner.entry,
      entries owner.children, text, ?_, entries_top _ _ _⟩
    rw [Reading.soFar, stacked, entries_top]
  · have kept := closeTo_entries depth measured.opened measured.roots
    rcases Reading.place_cases placed with
      ⟨own, rfl, _, rfl⟩ | ⟨owner, outer, text, indent, stacked, _, rfl⟩
    · refine .inl ⟨own, depth, classified, ?_⟩
      rw [Reading.soFar, entries_top, kept]
      rfl
    · rw [stacked, entries_top] at kept
      exact .inr ⟨_, owner.entry, entries owner.children, text, kept.symm, entries_top _ _ _⟩

/-- A reader has taken account of lines: each node stands on one of them, in their order, and each of
them is a node or an entry of raw HTML. -/
structure Reading.Accounts (reading : Reading) (lines : List SourceLine) : Prop where
  inOrder : (reading.soFar.map Node.line).Sublist (lines.map SourceLine.number)
  count : reading.soFar.length + (reading.soFar.map fun entry => entry.html.length).sum =
    lines.length

theorem Reading.Accounts.step {seen : List SourceLine} (accounts : reading.Accounts seen)
    (done : reading.step registry file base line = .ok next) : next.Accounts (seen ++ [line]) := by
  have count := accounts.count
  rcases Reading.step_entries done with
    ⟨kind, depth, _, added⟩ | ⟨before, owner, after, text, reads, writes⟩
  · constructor
    · rw [added, map_append, map_append]
      exact accounts.inOrder.append (List.Sublist.refl _)
    · rw [added]
      simp only [length_append, map_append, sum_append, length_singleton]
      simp only [Node.leaf, map_cons, map_nil, length_nil, sum_cons,
        sum_nil]
      omega
  · constructor
    · have lines := accounts.inOrder
      rw [reads] at lines
      rw [writes, map_append, map_cons, map_append]
      rw [map_append, map_cons] at lines
      exact lines.trans (sublist_append_left _ _)
    · rw [reads] at count
      rw [writes]
      simp only [length_append, map_append, sum_append, length_cons,
        map_cons, sum_cons] at count ⊢
      omega

theorem Reading.foldlM_step (lines seen : List SourceLine) {final : Reading} (sound : reading.Sound)
    (accounts : reading.Accounts seen)
    (done : lines.foldlM (Reading.step registry file base) reading = .ok final) :
    final.Sound ∧ final.Accounts (seen ++ lines) := by
  induction lines generalizing reading seen with
  | nil =>
    cases done
    rw [append_nil]
    exact ⟨sound, accounts⟩
  | cons line rest ih =>
    rw [foldlM_cons] at done
    obtain ⟨next, stepped, remaining⟩ := bind_eq_ok.mp done
    have whole := ih (seen ++ [line]) (sound.step stepped) (accounts.step stepped) remaining
    rwa [append_assoc] at whole

private theorem sourceLines_increasing (offset : Nat) (text : Text) :
    ((sourceLines offset text).map SourceLine.number).Pairwise (· < ·) := by
  have indices : ((Text.lines text).zipIdx.map Prod.snd).Pairwise (· < ·) := by
    rw [zipIdx_map_snd]
    exact pairwise_lt_range'
  have numbers : ((Text.lines text).zipIdx.map fun entry => offset + entry.2 + 1).Pairwise
      (· < ·) := by
    rw [pairwise_map] at indices ⊢
    exact indices.imp fun before => by omega
  rw [sourceLines, map_map]
  exact numbers.sublist (List.filter_sublist.map _)

private theorem sourceLines_length (offset : Nat) (text : Text) :
    (sourceLines offset text).length =
      ((Text.lines text).filter fun line => ! Text.allBlank line).length := by
  have lines : (Text.lines text).zipIdx.map Prod.fst = Text.lines text := zipIdx_map_fst _ _
  rw [sourceLines, length_map]
  conv => rhs; rw [← lines, filter_map, length_map]
  rfl

theorem read_cases {offset : Nat} {nodes : List Node}
    (done : read registry file offset text = .ok nodes) :
    ∃ base reading,
      (sourceLines offset text).foldlM (Reading.step registry file base) {} = .ok reading ∧
      Rooted nodes ∧ entries nodes = reading.soFar := by
  unfold read at done
  cases split : sourceLines offset text with
  | nil =>
    rw [split] at done
    cases done
    exact ⟨0, {}, rfl, fun _ member => (nomatch member), rfl⟩
  | cons first rest =>
    rw [split] at done
    obtain ⟨reading, folded, finished⟩ := bind_eq_ok.mp done
    cases finished
    have started : ({} : Reading).Accounts [] := ⟨.slnil, rfl⟩
    obtain ⟨sound, _⟩ := Reading.foldlM_step (first :: rest) [] .start started folded
    obtain ⟨_, rooted, height⟩ := closeTo_stack sound.stack sound.rooted (Nat.zero_le _)
    refine ⟨_, reading, folded, fun root member => rooted root (mem_reverse.mp member), ?_⟩
    -- nothing is open any more, so the roots hold all that was read
    have kept := closeTo_entries 0 reading.opened reading.roots
    rw [eq_nil_of_length_eq_zero height, reverse_nil, append_nil] at kept
    exact kept

private theorem read_eq_ok {offset : Nat} {nodes : List Node}
    (done : read registry file offset text = .ok nodes) :
    Rooted nodes ∧
      ((entries nodes).map Node.line).Sublist ((sourceLines offset text).map SourceLine.number) ∧
      (entries nodes).length + ((entries nodes).map fun entry => entry.html.length).sum =
        (sourceLines offset text).length := by
  obtain ⟨base, reading, folded, rooted, all⟩ := read_cases done
  have started : ({} : Reading).Accounts [] := ⟨.slnil, rfl⟩
  obtain ⟨_, accounts⟩ := Reading.foldlM_step _ [] .start started folded
  rw [all]
  exact ⟨rooted, accounts.inOrder, accounts.count⟩

private theorem entries_lines (nodes : List Node) :
    (entries nodes).map Node.line = (allNodes nodes).map Node.line := by
  rw [entries, map_map]
  rfl

private theorem entries_html (nodes : List Node) :
    ((entries nodes).map fun entry => entry.html.length) =
      (allNodes nodes).map fun node => node.html.length := by
  rw [entries, map_map]
  rfl

/-- Every forest that is read is well formed: depths grow by one from the roots, lines increase in
reading order, raw HTML and children exclude each other, blocks hold no HTML and are defined only
among the roots, links are empty, and every line that is not blank is one node or one entry of raw
HTML. So no forest that is read is refused for a link with children. -/
theorem read_forest (registry : Registry) (file : String) (offset : Nat) (text : Text)
    (nodes : List Node) (done : read registry file offset text = .ok nodes) :
    (∀ root ∈ nodes, root.depth = 0) ∧
    (∀ node ∈ allNodes nodes, ∀ child ∈ node.children, child.depth = node.depth + 1) ∧
    ((allNodes nodes).map Node.line).Pairwise (· < ·) ∧
    (∀ node ∈ allNodes nodes, node.isWidget = true → node.html = [] ∨ node.children = []) ∧
    (∀ node ∈ allNodes nodes, ∀ name link, node.kind = .block name link → node.html = []) ∧
    (∀ node ∈ allNodes nodes, ∀ name, node.kind = .block name true → node.children = []) ∧
    (∀ node ∈ allNodes nodes, ∀ child ∈ node.children, child.isDefinition = false) ∧
    (∀ label output violation, emit label output nodes = .error violation →
      ∀ name, violation.cause ≠ .linkWithChildren name) ∧
    (allNodes nodes).length + ((allNodes nodes).map fun node => node.html.length).sum =
      ((Text.lines text).filter fun line => ! Text.allBlank line).length := by
  obtain ⟨rooted, inOrder, count⟩ := read_eq_ok done
  have complete : ∀ root ∈ nodes, root.Complete := fun root member => (rooted root member).2
  have shape : ∀ node ∈ allNodes nodes, node.WellFormed := by
    intro node member
    obtain ⟨root, within, below⟩ := mem_allNodes.mp member
    exact complete root within node below
  refine ⟨fun root member => (rooted root member).1,
    fun node member => (shape node member).child_depth, ?_,
    fun node member => (shape node member).widget, fun node member => (shape node member).block,
    fun node member => (shape node member).link, ?_, ?_, ?_⟩
  · rw [← entries_lines]
    exact (sourceLines_increasing offset text).sublist inOrder
  · intro node member child below
    have inner := shape child (child_mem_allNodes below nodes member)
    exact (shape node member).not_definition inner below
  · intro label output
    exact emit_noLinkFault label output nodes complete
  · rw [← sourceLines_length offset text, ← count, entries_html, entries, List.length_map]

def cardTemplate : Text :=
  "<*card>\n  <TextBox>\n\n<Box>\n  if wide:\n    <&card>\n  else:\n    <p>\n      deep\n    <Box>\n".toList

theorem read_forest_card :
    ∃ nodes, read .builtin "card" 0 cardTemplate = .ok nodes ∧ (allNodes nodes).length = 7 ∧
      (∀ root ∈ nodes, root.depth = 0) ∧ ((allNodes nodes).map Node.line).Pairwise (· < ·) ∧
      (allNodes nodes).length + ((allNodes nodes).map fun node => node.html.length).sum =
        ((Text.lines cardTemplate).filter fun line => ! Text.allBlank line).length := by
  have sizes : (read .builtin "card" 0 cardTemplate).toOption.map
      (fun nodes => (allNodes nodes).length) = some 7 := by
    decide +kernel
  cases done : read .builtin "card" 0 cardTemplate with
  | error violation =>
      rw [done] at sizes
      cases sizes
  | ok nodes =>
      rw [done] at sizes
      obtain ⟨roots, _, lines, _, _, _, _, _, count⟩ :=
        read_forest .builtin "card" 0 cardTemplate nodes done
      exact ⟨nodes, rfl, Option.some.inj sizes, roots, lines, count⟩

end PageScript.Template
