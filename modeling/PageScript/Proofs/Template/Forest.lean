import PageScript.Template.Emitter
import PageScript.Template.Reader

/-! Nodes of a template and all nodes below them. -/

open List

namespace PageScript.Template

variable {inner node child : Node} {forest : List Node}

mutual

/-- A node and all nodes below it, in reading order. -/
def Node.all : Node → List Node
  | ⟨kind, depth, line, children, html⟩ =>
      ⟨kind, depth, line, children, html⟩ :: allNodes children

def allNodes : List Node → List Node
  | [] => []
  | node :: rest => node.all ++ allNodes rest

end

theorem Node.all_eq (node : Node) : node.all = node :: allNodes node.children := by
  cases node
  rw [Node.all]

theorem allNodes_append (left right : List Node) :
    allNodes (left ++ right) = allNodes left ++ allNodes right := by
  induction left with
  | nil => rfl
  | cons node rest ih =>
    rw [cons_append, allNodes, allNodes, ih, append_assoc]

theorem mem_allNodes :
    inner ∈ allNodes forest ↔ ∃ node ∈ forest, inner ∈ node.all := by
  induction forest with
  | nil => simp [allNodes]
  | cons node rest ih => simp [allNodes, ih]

theorem forall_allNodes_cons {holds : Node → Prop} {rest : List Node} :
    (∀ inner ∈ allNodes (node :: rest), holds inner) ↔
      (holds node ∧ ∀ inner ∈ allNodes node.children, holds inner) ∧
        ∀ inner ∈ allNodes rest, holds inner := by
  simp only [allNodes, Node.all_eq, mem_append, mem_cons, or_imp, forall_and, forall_eq]

theorem Node.mem_all_self (node : Node) : node ∈ node.all := by
  rw [Node.all_eq]
  exact mem_cons_self

theorem forest_induct {motive : List Node → Prop} (nil : motive [])
    (cons : ∀ first rest, motive first.children → motive rest → motive (first :: rest)) :
    ∀ forest, motive forest
  | [] => nil
  | first :: rest =>
    cons first rest (forest_induct nil cons first.children) (forest_induct nil cons rest)
termination_by forest => sizeOf forest
decreasing_by
  · cases first
    simp only [List.cons.sizeOf_spec, Node.mk.sizeOf_spec]
    omega
  · simp only [List.cons.sizeOf_spec]
    omega

theorem child_mem_allNodes (below : child ∈ inner.children) (forest : List Node)
    (member : inner ∈ allNodes forest) : child ∈ allNodes forest := by
  induction forest using forest_induct with
  | nil => cases member
  | cons node rest own later =>
    rw [allNodes, Node.all_eq] at member ⊢
    rcases mem_append.mp member with first | behind
    · refine mem_append_left _ (mem_cons_of_mem _ ?_)
      rcases mem_cons.mp first with rfl | within
      · exact mem_allNodes.mpr ⟨child, below, child.mem_all_self⟩
      · exact own within
    · exact mem_append_right _ (later behind)

theorem followsCondition_of_isWidget (isWidget : node.isWidget = true) : node.kind.followsCondition = false := by
  unfold Node.isWidget at isWidget
  split at isWidget
  · rename_i widget
    rw [widget]
    rfl
  · cases isWidget

/-- The one widget of a matrix is emitted like a list of siblings, and nothing else is. -/
theorem matrixItem_cases (emission : Emission) (line count next : Nat) (nodes : List Node) :
    (∃ child, nodes = [child] ∧ child.isWidget = true ∧ matrixItem emission line count next nodes =
      siblings emission (some "__item".toList) false false next nodes) ∨
    (¬ ∃ child, nodes = [child] ∧ child.isWidget = true) ∧ matrixItem emission line count next nodes =
      .error (emission.violation line (.matrixChildren count)) := by
  unfold matrixItem
  split
  · rename_i child
    split
    · rename_i isWidget
      refine .inl ⟨child, rfl, isWidget, ?_⟩
      rw [siblings, followsCondition_of_isWidget isWidget, Bool.false_and, if_neg Bool.false_ne_true]
      cases single emission (some "__item".toList) false next child <;>
        simp [siblings, bind, Except.bind, pure, Except.pure]
    · rename_i other
      refine .inr ⟨?_, rfl⟩
      rintro ⟨_, same, isWidget⟩
      cases same
      exact other isWidget
  · rename_i several
    exact .inr ⟨fun ⟨child, same, _⟩ => several child same, rfl⟩

/-- What holds of a single node of a forest that was read. -/
structure Node.WellFormed (node : Node) : Prop where
  child_depth : ∀ child ∈ node.children, child.depth = node.depth + 1
  widget : node.isWidget = true → node.html = [] ∨ node.children = []
  block : ∀ name link, node.kind = .block name link → node.html = []
  link : ∀ name, node.kind = .block name true → node.children = []
  definition : node.isDefinition = true → node.depth = 0

/-- A node and everything below it is well formed. -/
def Node.Complete (node : Node) : Prop :=
  ∀ inner ∈ node.all, inner.WellFormed

theorem Node.complete_iff :
    node.Complete ↔ node.WellFormed ∧ ∀ child ∈ node.children, child.Complete := by
  unfold Node.Complete
  rw [Node.all_eq]
  simp only [mem_cons, forall_eq_or_imp, mem_allNodes]
  constructor
  · rintro ⟨own, below⟩
    exact ⟨own, fun child member inner within => below inner ⟨child, member, within⟩⟩
  · rintro ⟨own, below⟩
    refine ⟨own, ?_⟩
    rintro inner ⟨child, member, within⟩
    exact below child member inner within

theorem Node.WellFormed.not_definition (shape : node.WellFormed) (inner : child.WellFormed)
    (member : child ∈ node.children) : child.isDefinition = false := by
  rw [Bool.eq_false_iff]
  intro defines
  have outermost := inner.definition defines
  have deeper := shape.child_depth child member
  omega

structure Node.TakesChild (node : Node) : Prop where
  widget : node.isWidget = true → node.html = []
  link : ∀ name, node.kind ≠ .block name true

structure Node.TakesHtml (node : Node) : Prop where
  widget : node.isWidget = true → node.children = []
  block : ∀ name link, node.kind ≠ .block name link

theorem Node.takesChild_of_accepts {parent : Node} (accepted : acceptsChild parent = .ok ()) :
    parent.TakesChild := by
  obtain ⟨kind, depth, line, children, html⟩ := parent
  cases kind with
  | widget widget =>
    refine ⟨fun _ => ?_, fun name => by simp⟩
    by_cases empty : html.isEmpty = true
    · exact isEmpty_iff.mp empty
    · simp [acceptsChild, empty] at accepted
  | control control =>
    exact ⟨fun isWidget => by simp [Node.isWidget] at isWidget, fun name => by simp⟩
  | block name link =>
    cases link with
    | true => simp [acceptsChild] at accepted
    | false => exact ⟨fun isWidget => by simp [Node.isWidget] at isWidget, fun name => by simp⟩

theorem Node.takesHtml_of_accepts {owner : Node} (accepted : acceptsHtml owner = .ok ()) :
    owner.TakesHtml := by
  obtain ⟨kind, depth, line, children, html⟩ := owner
  cases kind with
  | widget widget =>
    refine ⟨fun _ => ?_, fun name link => by simp⟩
    by_cases empty : children.isEmpty = true
    · exact isEmpty_iff.mp empty
    · simp [acceptsHtml, empty] at accepted
  | control control =>
    exact ⟨fun isWidget => by simp [Node.isWidget] at isWidget, fun name link => by simp⟩
  | block name link => simp [acceptsHtml] at accepted

theorem Node.leaf_complete (kind : Kind) (depth line : Nat)
    (definition : ∀ name, kind = .block name false → depth = 0) :
    (Node.leaf kind depth line).Complete := by
  rw [Node.complete_iff]
  refine ⟨⟨?_, fun _ => .inl rfl, fun _ _ _ => rfl, fun _ _ => rfl, ?_⟩, ?_⟩
  · intro child member
    cases member
  · intro defines
    cases kind with
    | widget widget => cases defines
    | control control => cases defines
    | block name link =>
      cases link with
      | true => cases defines
      | false => exact definition name rfl
  · intro child member
    cases member

theorem Node.addChild_complete {parent : Node} (outer : parent.Complete) (inner : child.Complete)
    (takes : parent.TakesChild) (deeper : child.depth = parent.depth + 1) :
    (parent.addChild (some child)).Complete := by
  rw [Node.complete_iff] at outer ⊢
  obtain ⟨shape, below⟩ := outer
  refine ⟨⟨?_, fun isWidget => .inl (takes.widget isWidget), shape.block, ?_, shape.definition⟩,
    ?_⟩
  · intro other member
    rcases mem_append.mp member with earlier | new
    · exact shape.child_depth other earlier
    · rw [mem_singleton.mp new]
      exact deeper
  · intro name isLink
    exact absurd isLink (takes.link name)
  · intro other member
    rcases mem_append.mp member with earlier | new
    · exact below other earlier
    · rw [mem_singleton.mp new]
      exact inner

theorem Node.Complete.withHtml {owner : Node} (whole : owner.Complete) (takes : owner.TakesHtml)
    (html : List Text) : ({ owner with html := html } : Node).Complete := by
  rw [Node.complete_iff] at whole ⊢
  obtain ⟨shape, below⟩ := whole
  refine ⟨⟨shape.child_depth, fun isWidget => .inr (takes.widget isWidget), ?_, shape.link,
    shape.definition⟩, below⟩
  intro name link isBlock
  exact absurd isBlock (takes.block name link)

def Node.entry (node : Node) : Node :=
  { node with children := [] }

def entries (forest : List Node) : List Node :=
  (allNodes forest).map Node.entry

theorem entries_append (left right : List Node) :
    entries (left ++ right) = entries left ++ entries right := by
  rw [entries, allNodes_append, map_append]
  rfl

theorem entries_singleton (node : Node) :
    entries [node] = node.entry :: entries node.children := by
  rw [entries, allNodes, allNodes, append_nil, Node.all_eq]
  rfl

theorem entries_addChild (node : Node) (closed : Option Node) :
    entries [node.addChild closed] = entries ([node] ++ closed.toList) := by
  cases closed with
  | none => rfl
  | some child =>
    rw [entries_singleton, entries_append, entries_singleton]
    change node.entry :: entries (node.children ++ [child]) = _
    rw [entries_append]
    rfl

theorem not_definition_of_mem (complete : ∀ node ∈ forest, node.Complete)
    (plain : ∀ node ∈ forest, node.isDefinition = false) (member : inner ∈ allNodes forest) :
    inner.isDefinition = false := by
  induction forest using forest_induct with
  | nil => cases member
  | cons node rest below later =>
    obtain ⟨own, others⟩ := forall_mem_cons.mp complete
    obtain ⟨shape, children⟩ := Node.complete_iff.mp own
    rw [allNodes, Node.all_eq] at member
    rcases mem_append.mp member with first | behind
    · rcases mem_cons.mp first with rfl | within
      · exact plain _ mem_cons_self
      · refine below children (fun child among => ?_) within
        exact shape.not_definition (Node.complete_iff.mp (children child among)).1 among
    · exact later others (fun other among => plain other (mem_cons_of_mem _ among)) behind

end PageScript.Template
