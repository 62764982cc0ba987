import PageScript.Proofs.Outcome
import PageScript.Proofs.Template.Forest

/-!
Which forests have a script (`emit_exists_iff_acceptable`).
-/

open List

namespace PageScript.Template

variable {names : List Text} {node : Node} (emission : Emission) {left right : List Node}

/-! ### Acceptable forests -/

/-- Every branch stands right after a condition. -/
def Chained (nodes : List Node) : Prop :=
  ∀ left node right, nodes = left ++ node :: right → node.kind.followsCondition = true →
    ∃ earlier previous, left = earlier ++ [previous] ∧ previous.kind.isCondition = true

namespace Node

def isMatrix (node : Node) : Bool :=
  match node.kind with
  | .widget widget => widget.isMatrix
  | _ => false

def blockName? (node : Node) : Option Text :=
  match node.kind with
  | .block name _ => some name
  | _ => none

end Node

def definitions (roots : List Node) : List Node :=
  roots.filter (·.isDefinition)

def contents (roots : List Node) : List Node :=
  roots.filter (! ·.isDefinition)

def definedNames (roots : List Node) : List Text :=
  (definitions roots).filterMap (·.blockName?)

def innerNodes (roots : List Node) : List Node :=
  allNodes ((definitions roots).flatMap (·.children)) ++ allNodes (contents roots)

/-- The lists of nodes whose order counts: the contents, and what is below each definition, each
control word and each widget that is no matrix. -/
def siblingLists (roots : List Node) : List (List Node) :=
  contents roots :: (definitions roots).map (·.children) ++
    ((innerNodes roots).filter fun node => ! node.isMatrix && node.blockName?.isNone).map
      (·.children)

structure Acceptable (roots : List Node) : Prop where
  distinct : (definedNames roots).Nodup
  chained : ∀ nodes ∈ siblingLists roots, Chained nodes
  links : ∀ node ∈ innerNodes roots, ∀ name, node.blockName? = some name →
    name ∈ definedNames roots ∧ node.children = []
  matrices : ∀ node ∈ innerNodes roots, node.isMatrix = true →
    ∃ child, node.children = [child] ∧ child.isWidget = true

/-! ### Siblings in order -/

/-- The nodes are chained after a node that was a condition or was not. -/
def ChainedAfter : Bool → List Node → Prop
  | _, [] => True
  | branch, node :: rest =>
      (node.kind.followsCondition = true → branch = true) ∧ ChainedAfter node.kind.isCondition rest

private theorem chainedAfter_iff (branch : Bool) (nodes : List Node) :
    ChainedAfter branch nodes ↔
      ∀ left node right, nodes = left ++ node :: right → node.kind.followsCondition = true →
        (left = [] ∧ branch = true) ∨
          ∃ earlier previous, left = earlier ++ [previous] ∧ previous.kind.isCondition = true := by
  induction nodes generalizing branch with
  | nil =>
    constructor
    · intro _ left node right split
      cases left <;> cases split
    · intro _
      trivial
  | cons first rest ih =>
    constructor
    · rintro ⟨own, later⟩ left node right split follows
      cases left with
      | nil =>
        cases split
        exact .inl ⟨rfl, own follows⟩
      | cons head left =>
        cases split
        rcases (ih _).mp later left node right rfl follows with
          ⟨rfl, condition⟩ | ⟨earlier, previous, rfl, condition⟩
        · exact .inr ⟨[], first, rfl, condition⟩
        · exact .inr ⟨first :: earlier, previous, rfl, condition⟩
    · intro every
      refine ⟨fun follows => ?_, (ih _).mpr ?_⟩
      · rcases every [] first rest rfl follows with
          ⟨_, allowed⟩ | ⟨earlier, previous, split, _⟩
        · exact allowed
        · cases earlier <;> cases split
      · intro left node right split follows
        have below := every (first :: left) node right (by rw [split, cons_append]) follows
        rcases below with ⟨impossible, _⟩ | ⟨earlier, previous, same, condition⟩
        · cases impossible
        · cases earlier with
          | nil =>
            cases same
            exact .inl ⟨rfl, condition⟩
          | cons head earlier =>
            cases same
            exact .inr ⟨earlier, previous, rfl, condition⟩

private theorem chained_iff (nodes : List Node) : Chained nodes ↔ ChainedAfter false nodes := by
  rw [chainedAfter_iff]
  constructor
  · intro chained left node right split follows
    exact .inr (chained left node right split follows)
  · intro chained left node right split follows
    rcases chained left node right split follows with ⟨_, impossible⟩ | before
    · cases impossible
    · exact before

/-! ### Nodes one by one -/

/-- What a node must be like by itself, for the names that blocks have. -/
def Node.Sound (names : List Text) (node : Node) : Prop :=
  match node.kind with
  | .widget widget =>
      if widget.isMatrix then ∃ child, node.children = [child] ∧ child.isWidget = true
      else Chained node.children
  | .control _ => Chained node.children
  | .block name _ => name ∈ names ∧ node.children = []

theorem Node.sound_iff :
    node.Sound names ↔
      (node.isMatrix = false → node.blockName? = none → Chained node.children) ∧
      (∀ name, node.blockName? = some name → name ∈ names ∧ node.children = []) ∧
      (node.isMatrix = true → ∃ child, node.children = [child] ∧ child.isWidget = true) := by
  unfold Sound isMatrix blockName?
  cases node.kind with
  | widget widget => cases matrix : widget.isMatrix <;> simp [matrix]
  | control control => simp
  | block name link => simp

def AllSound (names : List Text) (nodes : List Node) : Prop :=
  ∀ node ∈ allNodes nodes, node.Sound names

private theorem allSound_nil (names : List Text) : AllSound names [] := by
  intro node member
  cases member

private theorem allSound_cons {rest : List Node} :
    AllSound names (node :: rest) ↔
      (node.Sound names ∧ AllSound names node.children) ∧ AllSound names rest :=
  forall_allNodes_cons

private theorem allSound_append :
    AllSound names (left ++ right) ↔ AllSound names left ∧ AllSound names right := by
  simp only [AllSound, allNodes_append, mem_append, or_imp, forall_and]

private theorem allSound_flatMap_children {nodes : List Node} :
    AllSound names (nodes.flatMap (·.children)) ↔ ∀ node ∈ nodes, AllSound names node.children := by
  induction nodes with
  | nil => simp [allSound_nil]
  | cons node rest ih => simp [allSound_append, ih]

/-! ### Success -/

private theorem matrixItem_exists_iff {line count next : Nat} {nodes : List Node}
    (below : (∃ answer, siblings emission (some "__item".toList) false false next nodes = .ok answer) ↔
      ChainedAfter false nodes ∧ AllSound emission.blocks nodes) :
    (∃ answer, matrixItem emission line count next nodes = .ok answer) ↔
      (∃ child, nodes = [child] ∧ child.isWidget = true) ∧ AllSound emission.blocks nodes := by
  rcases matrixItem_cases emission line count next nodes with
    ⟨child, only, isWidget, same⟩ | ⟨other, same⟩
  · have placed : ChainedAfter false nodes := by
      rw [only, ChainedAfter, followsCondition_of_isWidget isWidget]
      exact ⟨id, trivial⟩
    rw [same, below, and_iff_right placed, and_iff_right ⟨child, only, isWidget⟩]
  · rw [same]
    exact iff_of_false (by rintro ⟨_, ⟨⟩⟩) fun sound => other sound.1

mutual

theorem siblings_exists_iff (emission : Emission) (parent : Option Text) (top branch : Bool)
    (next : Nat) : (nodes : List Node) →
      ((∃ answer, siblings emission parent top branch next nodes = .ok answer) ↔
        ChainedAfter branch nodes ∧ AllSound emission.blocks nodes)
  | [] => by
      rw [siblings]
      exact ⟨fun _ => ⟨trivial, allSound_nil _⟩, fun _ => ⟨_, rfl⟩⟩
  | node :: rest => by
      rw [siblings, allSound_cons, ChainedAfter]
      split
      · rename_i stray
        rw [Bool.and_eq_true, Bool.not_eq_true'] at stray
        refine iff_of_false (by rintro ⟨_, ⟨⟩⟩) ?_
        rintro ⟨⟨own, _⟩, _⟩
        rw [own stray.1] at stray
        cases stray.2
      · rename_i placed
        have allowed : node.kind.followsCondition = true → branch = true := by
          intro follows
          simpa [follows] using placed
        rw [exists_ok_bind (single_exists_iff emission parent top next node) fun _ _ =>
          exists_ok_bind (siblings_exists_iff emission parent top _ _ rest) fun _ _ =>
            exists_ok_pure _]
        constructor
        · rintro ⟨first, ⟨chained, others⟩, _⟩
          exact ⟨⟨allowed, chained⟩, first, others⟩
        · rintro ⟨⟨_, chained⟩, first, others⟩
          exact ⟨first, ⟨chained, others⟩, trivial⟩

theorem single_exists_iff (emission : Emission) (parent : Option Text) (top : Bool) (next : Nat) :
    (node : Node) →
      ((∃ answer, single emission parent top next node = .ok answer) ↔
        node.Sound emission.blocks ∧ AllSound emission.blocks node.children)
  | ⟨.widget widget, depth, line, children, html⟩ => by
      have below (parent : Option Text) :=
        siblings_exists_iff emission parent false false (next + 1) children
      rw [← chained_iff] at below
      rw [single]
      dsimp only [Node.Sound]
      split
      · rw [exists_ok_bind (matrixItem_exists_iff emission
          (siblings_exists_iff emission _ false false (next + 1) children))
          fun _ _ => exists_ok_pure _, and_true]
      · split
        · rename_i empty
          rw [isEmpty_iff.mp empty, chained_iff]
          exact ⟨fun _ => ⟨trivial, allSound_nil _⟩, fun _ => ⟨_, rfl⟩⟩
        · split
          · rw [exists_ok_bind (below none) fun _ _ => exists_ok_pure _, and_true]
          · rw [exists_ok_bind (below _) fun _ _ => exists_ok_pure _, and_true]
  | ⟨.control control, depth, line, children, html⟩ => by
      have below := siblings_exists_iff emission parent top false next children
      rw [← chained_iff] at below
      rw [single]
      rw [exists_ok_bind below fun _ _ => exists_ok_pure _, and_true]
      rfl
  | ⟨.block name link, depth, line, children, html⟩ => by
      rw [single]
      dsimp only [Node.Sound]
      split
      · rename_i undefined
        refine iff_of_false (by rintro ⟨_, ⟨⟩⟩) ?_
        rintro ⟨⟨known, _⟩, _⟩
        simp [known] at undefined
      · rename_i defined
        split
        · rename_i filled
          refine iff_of_false (by rintro ⟨_, ⟨⟩⟩) ?_
          rintro ⟨⟨_, childless⟩, _⟩
          simp [childless] at filled
        · rename_i empty
          have childless : children = [] := by simpa using empty
          have known : name ∈ emission.blocks := by simpa using defined
          rw [childless]
          exact ⟨fun _ => ⟨⟨known, rfl⟩, allSound_nil _⟩, fun _ => ⟨_, rfl⟩⟩

end

/-! ### Definitions -/

theorem definitions_cons_of_block {name : Text} (defines : node.kind = .block name false)
    (rest : List Node) : definitions (node :: rest) = node :: definitions rest := by
  simp [definitions, Node.isDefinition, defines]

theorem definedNames_cons {name : Text} (defines : node.kind = .block name false) (rest : List Node) :
    definedNames (node :: rest) = name :: definedNames rest := by
  simp [definedNames, definitions_cons_of_block defines, Node.blockName?, defines]

theorem definitions_cons_of_other (other : ∀ name, node.kind ≠ .block name false) (rest : List Node) :
    definitions (node :: rest) = definitions rest := by
  refine filter_cons_of_neg ?_
  unfold Node.isDefinition
  split
  · rename_i name defines
    exact absurd defines (other name)
  · exact Bool.false_ne_true

private theorem definedBlocks_eq_ok {emission : Emission} {found : List Text} {nodes : List Node} :
    definedBlocks emission names nodes = .ok found ↔
      ((definedNames nodes).Nodup ∧ ∀ name ∈ definedNames nodes, name ∉ names) ∧
        found = (definedNames nodes).reverse ++ names := by
  induction nodes generalizing names with
  | nil =>
    rw [definedBlocks]
    simp [definedNames, definitions, eq_comm]
  | cons node rest ih =>
    rw [definedBlocks]
    split
    · rename_i name defines
      rw [definedNames_cons defines]
      by_cases taken : name ∈ names
      · simp [taken]
      · rw [if_neg (by simpa using taken), ih]
        simp only [mem_cons, nodup_cons, reverse_cons, append_assoc,
          cons_append, nil_append, not_or, forall_eq_or_imp]
        constructor
        · rintro ⟨⟨distinct, free⟩, same⟩
          have fresh : name ∉ definedNames rest := fun member => (free name member).1 rfl
          exact ⟨⟨⟨fresh, distinct⟩, taken, fun other member => (free other member).2⟩, same⟩
        · rintro ⟨⟨⟨fresh, distinct⟩, _, free⟩, same⟩
          refine ⟨⟨distinct, fun other member => ⟨?_, free other member⟩⟩, same⟩
          rintro rfl
          exact fresh member
    · rename_i other
      rw [ih]
      unfold definedNames
      rw [definitions_cons_of_other other]

private theorem blockFunctions_exists_iff (next : Nat) (nodes : List Node) :
    (∃ answer, blockFunctions emission next nodes = .ok answer) ↔
      ∀ definition ∈ definitions nodes,
        Chained definition.children ∧ AllSound emission.blocks definition.children := by
  induction nodes generalizing next with
  | nil =>
    rw [blockFunctions]
    exact ⟨fun _ => forall_mem_nil _, fun _ => ⟨_, rfl⟩⟩
  | cons node rest ih =>
    rw [blockFunctions]
    split
    · rename_i name defines
      have body := siblings_exists_iff emission (some "__parent".toList) false false next
        node.children
      rw [← chained_iff] at body
      rw [exists_ok_bind body fun _ _ => exists_ok_bind (ih _) fun _ _ => exists_ok_pure _,
        definitions_cons_of_block defines]
      simp only [mem_cons, forall_eq_or_imp, and_true]
    · rename_i other
      rw [ih, definitions_cons_of_other other]

/-! ### Forests -/

private theorem innerNodes_sound_iff {roots : List Node} :
    (∀ node ∈ innerNodes roots, node.Sound names) ↔
      (∀ definition ∈ definitions roots, AllSound names definition.children) ∧
        AllSound names (contents roots) := by
  rw [← allSound_flatMap_children, ← allSound_append, AllSound, allNodes_append]
  rfl

private theorem acceptable_iff (roots : List Node) :
    Acceptable roots ↔
      (definedNames roots).Nodup ∧
      (∀ definition ∈ definitions roots,
        Chained definition.children ∧ AllSound (definedNames roots) definition.children) ∧
      Chained (contents roots) ∧ AllSound (definedNames roots) (contents roots) := by
  have soundness := @innerNodes_sound_iff (definedNames roots) roots
  constructor
  · intro acceptable
    have sound : ∀ node ∈ innerNodes roots, node.Sound (definedNames roots) := by
      intro node member
      refine Node.sound_iff.mpr ⟨?_, acceptable.links node member, acceptable.matrices node member⟩
      intro plain unnamed
      apply acceptable.chained
      refine mem_append_right _ (mem_map.mpr ⟨node, mem_filter.mpr ⟨member, ?_⟩, rfl⟩)
      simp [plain, unnamed]
    obtain ⟨inDefinitions, inContents⟩ := soundness.mp sound
    refine ⟨acceptable.distinct, ?_, ?_, inContents⟩
    · intro definition member
      refine ⟨acceptable.chained _ ?_, inDefinitions definition member⟩
      exact mem_append_left _ (mem_cons_of_mem _ (mem_map_of_mem member))
    · exact acceptable.chained _ (mem_append_left _ mem_cons_self)
  · rintro ⟨distinct, ofDefinitions, chained, inContents⟩
    have sound := soundness.mpr
      ⟨fun definition member => (ofDefinitions definition member).2, inContents⟩
    refine ⟨distinct, ?_, fun node member => (Node.sound_iff.mp (sound node member)).2.1,
      fun node member => (Node.sound_iff.mp (sound node member)).2.2⟩
    intro nodes member
    rcases mem_append.mp member with outer | below
    · rcases mem_cons.mp outer with rfl | ofDefinition
      · exact chained
      · obtain ⟨definition, within, rfl⟩ := mem_map.mp ofDefinition
        exact (ofDefinitions definition within).1
    · obtain ⟨node, within, rfl⟩ := mem_map.mp below
      obtain ⟨inner, passes⟩ := mem_filter.mp within
      rw [Bool.and_eq_true, Bool.not_eq_true', Option.isNone_iff_eq_none] at passes
      exact (Node.sound_iff.mp (sound node inner)).1 passes.1 passes.2

private theorem allSound_congr {left right : List Text} (same : ∀ name, name ∈ left ↔ name ∈ right)
    (nodes : List Node) : AllSound left nodes ↔ AllSound right nodes := by
  unfold AllSound
  simp only [Node.sound_iff, same]

theorem emit_exists_iff_acceptable (file : String) (output : Option Text) (roots : List Node) :
    (∃ script, emit file output roots = .ok script) ↔ Acceptable roots := by
  have collects : (∃ names, definedBlocks { file, output } [] roots = .ok names) ↔
      (definedNames roots).Nodup := by
    simp [definedBlocks_eq_ok]
  rw [acceptable_iff]
  unfold emit
  refine exists_ok_bind collects fun names collected => ?_
  -- the names were collected in reverse, which makes no difference to what they are
  have same : ∀ name, name ∈ names ↔ name ∈ definedNames roots := by
    rw [(definedBlocks_eq_ok.mp collected).2]
    simp
  refine exists_ok_bind ?_ fun functions _ => ?_
  · rw [blockFunctions_exists_iff]
    simp only [allSound_congr same]
  · rw [chained_iff, ← allSound_congr same]
    rw [← and_true (ChainedAfter false (contents roots) ∧ _)]
    refine exists_ok_bind (siblings_exists_iff _ _ _ _ _ _) fun code _ => ?_
    cases output with
    | none => exact exists_ok_pure _
    | some name => exact exists_ok_pure _

/-! ### Nodes that are refused -/

variable {cause : Cause} {nodes roots : List Node}

/-- A branch among siblings that no condition comes before. Before the siblings there was a condition
or not. -/
def StrayAfter (branch : Bool) (nodes : List Node) (node : Node) : Prop :=
  ∃ before after, nodes = before ++ node :: after ∧ node.kind.followsCondition = true ∧
    ((before.getLast?.map (·.kind.isCondition)).getD branch) = false

/-- What is wrong with a node, for the names that blocks have. -/
inductive Faulty (names : List Text) (nodes : List Node) (node : Node) : Cause → Prop
  | undefined {name : Text} (inner : node ∈ allNodes nodes) (named : node.blockName? = some name)
      (unknown : name ∉ names) : Faulty names nodes node (.undefinedBlock (String.ofList name))
  | filled {name : Text} (inner : node ∈ allNodes nodes) (named : node.blockName? = some name)
      (more : node.children ≠ []) : Faulty names nodes node (.linkWithChildren (String.ofList name))
  | matrix (inner : node ∈ allNodes nodes) (isMatrix : node.isMatrix = true)
      (other : ¬ ∃ child, node.children = [child] ∧ child.isWidget = true) :
      Faulty names nodes node (.matrixChildren node.children.length)
  | stray {parent : Node} (inner : parent ∈ allNodes nodes) (plain : parent.isMatrix = false)
      (unnamed : parent.blockName? = none) (alone : StrayAfter false parent.children node) :
      Faulty names nodes node .strayElse

theorem Faulty.mono (faulty : Faulty names left node cause)
    (within : allNodes left ⊆ allNodes right) : Faulty names right node cause := by
  cases faulty with
  | undefined inner named unknown => exact .undefined (within inner) named unknown
  | filled inner named more => exact .filled (within inner) named more
  | matrix inner isMatrix other => exact .matrix (within inner) isMatrix other
  | stray inner plain unnamed alone => exact .stray (within inner) plain unnamed alone

theorem Faulty.mem (faulty : Faulty names nodes node cause) : node ∈ allNodes nodes := by
  cases faulty with
  | undefined inner _ _ => exact inner
  | filled inner _ _ => exact inner
  | matrix inner _ _ => exact inner
  | stray inner _ _ alone =>
    obtain ⟨before, after, split, _⟩ := alone
    exact child_mem_allNodes (by rw [split]; simp) nodes inner

def Blames {α : Type} (faulty : Node → Cause → Prop) (result : Except Violation α) : Prop :=
  ∀ violation, result = .error violation → ∃ node, violation.line = node.line ∧
    faulty node violation.cause

namespace Blames

variable {α β : Type} {faulty other : Node → Cause → Prop} {result : Except Violation α}

private theorem ok (value : α) : Blames faulty (.ok value : Except Violation α) := by
  intro violation failed
  cases failed

private theorem error (node : Node) (wrong : faulty node cause) :
    Blames faulty (.error (emission.violation node.line cause) : Except Violation α) := by
  intro violation failed
  cases failed
  exact ⟨node, rfl, wrong⟩

private theorem bind {next : α → Except Violation β}
    (first : Blames faulty result) (then_ : ∀ value, Blames faulty (next value)) :
    Blames faulty (result >>= next) := by
  intro violation failed
  rcases bind_eq_error.mp failed with here | ⟨value, _, later⟩
  · exact first violation here
  · exact then_ value violation later

private theorem imp (blames : Blames faulty result)
    (wider : ∀ node cause, faulty node cause → other node cause) : Blames other result := by
  intro violation failed
  obtain ⟨node, line, wrong⟩ := blames violation failed
  exact ⟨node, line, wider node _ wrong⟩

end Blames

/-- A stray branch among siblings, or something wrong inside them. -/
def FaultyAfter (names : List Text) (branch : Bool) (nodes : List Node) (node : Node)
    (cause : Cause) : Prop :=
  (cause = .strayElse ∧ StrayAfter branch nodes node) ∨ Faulty names nodes node cause

theorem FaultyAfter.cons {branch : Bool} {first : Node} {rest : List Node}
    (faulty : FaultyAfter names first.kind.isCondition rest node cause) :
    FaultyAfter names branch (first :: rest) node cause := by
  rcases faulty with ⟨same, before, after, split, follows, alone⟩ | inside
  · refine .inl ⟨same, first :: before, after, by rw [split, cons_append], follows, ?_⟩
    cases before with
    | nil => exact alone
    | cons head before => exact alone
  · exact .inr (inside.mono (subset_append_right _ _))

private theorem allNodes_children (node : Node) : allNodes node.children ⊆ allNodes [node] := by
  rw [allNodes, Node.all_eq, allNodes, append_nil]
  exact subset_cons_self _ _

private theorem self_mem_allNodes (node : Node) : node ∈ allNodes [node] :=
  mem_allNodes.mpr ⟨node, mem_singleton_self node, node.mem_all_self⟩

theorem FaultyAfter.below (parent : Node) (plain : parent.isMatrix = false)
    (unnamed : parent.blockName? = none) (faulty : FaultyAfter names false parent.children node cause) :
    Faulty names [parent] node cause := by
  rcases faulty with ⟨rfl, alone⟩ | inside
  · exact .stray (self_mem_allNodes parent) plain unnamed alone
  · exact inside.mono (allNodes_children parent)

mutual

theorem siblings_blames (emission : Emission) (parent : Option Text) (top branch : Bool)
    (next : Nat) : (nodes : List Node) →
      Blames (FaultyAfter emission.blocks branch nodes)
        (siblings emission parent top branch next nodes)
  | [] => .ok _
  | node :: rest => by
      rw [siblings]
      split
      · rename_i stray
        rw [Bool.and_eq_true, Bool.not_eq_true'] at stray
        exact .error emission node (.inl ⟨rfl, [], rest, rfl, stray.1, stray.2⟩)
      · refine .bind ((single_blames emission parent top next node).imp fun _ _ wrong =>
          .inr (wrong.mono ?_)) ?_
        · exact append_subset.mpr ⟨subset_append_left _ _, nil_subset _⟩
        · intro value
          refine .bind ((siblings_blames emission parent top _ _ rest).imp fun _ _ => .cons) ?_
          intro value
          exact .ok _

theorem single_blames (emission : Emission) (parent : Option Text) (top : Bool) (next : Nat) :
    (node : Node) → Blames (Faulty emission.blocks [node]) (single emission parent top next node)
  | ⟨.widget widget, depth, line, children, html⟩ => by
      have below (parent : Option Text) (plain : widget.isMatrix = false) :=
        (siblings_blames emission parent false false (next + 1) children).imp fun _ _ wrong =>
          FaultyAfter.below ⟨.widget widget, depth, line, children, html⟩ plain rfl wrong
      rw [single]
      dsimp only
      split
      · rename_i isMatrix
        refine .bind ?_ fun _ => .ok _
        rcases matrixItem_cases emission line children.length (next + 1) children with
          ⟨child, only, isWidget, same⟩ | ⟨other, same⟩
        all_goals rw [same]
        · refine (siblings_blames emission _ false false (next + 1) children).imp ?_
          rintro node _ (⟨_, before, after, split, follows, _⟩ | inside)
          · have widget : node = child := mem_singleton.mp (by rw [← only, split]; simp)
            rw [widget, followsCondition_of_isWidget isWidget] at follows
            cases follows
          · exact inside.mono (allNodes_children ⟨_, depth, line, children, html⟩)
        · exact .error emission ⟨_, depth, line, children, html⟩
            (.matrix (self_mem_allNodes _) isMatrix other)
      · rename_i plain
        rw [Bool.not_eq_true] at plain
        split
        · exact .ok _
        · split
          · exact .bind (below none plain) fun _ => .ok _
          · exact .bind (below _ plain) fun _ => .ok _
  | ⟨.control control, depth, line, children, html⟩ => by
      rw [single]
      refine .bind ((siblings_blames emission parent top false next children).imp fun _ _ wrong =>
        FaultyAfter.below ⟨.control control, depth, line, children, html⟩ rfl rfl wrong) ?_
      intro value
      exact .ok _
  | ⟨.block name link, depth, line, children, html⟩ => by
      have own := self_mem_allNodes ⟨.block name link, depth, line, children, html⟩
      rw [single]
      split
      · rename_i unknown
        exact .error emission ⟨.block name link, depth, line, children, html⟩
          (.undefined own rfl (by simpa using unknown))
      · split
        · rename_i filled
          exact .error emission ⟨.block name link, depth, line, children, html⟩
            (.filled own rfl (by simpa using filled))
        · exact .ok _

end

def bodies (roots : List Node) : List Node :=
  (definitions roots).flatMap (·.children) ++ contents roots

/-- Why a forest has no script: a block is defined a second time, a branch is stray among the contents
or right below a definition, or something is wrong further inside. -/
inductive Refused (roots : List Node) (node : Node) : Cause → Prop
  | twice {name : Text} {before after : List Node} (split : definitions roots = before ++ node :: after)
      (defines : node.kind = .block name false) (again : name ∈ definedNames before) :
      Refused roots node (.blockTwice (String.ofList name))
  | stray {nodes : List Node} (outer : nodes ∈ contents roots :: (definitions roots).map (·.children))
      (alone : StrayAfter false nodes node) : Refused roots node .strayElse
  | inside {cause : Cause} (faulty : Faulty (definedNames roots) (bodies roots) node cause) :
      Refused roots node cause

private theorem definedBlocks_blames (names : List Text) (nodes : List Node) : Blames
      (fun node cause => ∃ name before after, cause = .blockTwice (String.ofList name) ∧
        definitions nodes = before ++ node :: after ∧ node.kind = .block name false ∧
        (name ∈ names ∨ name ∈ definedNames before))
      (definedBlocks emission names nodes) := by
  induction nodes generalizing names with
  | nil => exact .ok _
  | cons first rest ih =>
    rw [definedBlocks]
    split
    · rename_i name defines
      have kept := definitions_cons_of_block defines rest
      split
      · rename_i taken
        exact .error emission first
          ⟨name, [], definitions rest, rfl, kept, defines, .inl (by simpa using taken)⟩
      · refine (ih (name :: names)).imp ?_
        rintro node cause ⟨own, before, after, same, split, kind, either⟩
        refine ⟨own, first :: before, after, same, by rw [kept, split, cons_append], kind, ?_⟩
        rw [definedNames_cons defines]
        rcases either with listed | earlier
        · rcases mem_cons.mp listed with rfl | listed
          · exact .inr mem_cons_self
          · exact .inl listed
        · exact .inr (mem_cons_of_mem _ earlier)
    · rename_i other
      rw [definitions_cons_of_other other]
      exact ih names

private theorem blockFunctions_blames (next : Nat) (nodes : List Node) : Blames
      (fun node cause => ∃ definition ∈ definitions nodes,
        FaultyAfter emission.blocks false definition.children node cause)
      (blockFunctions emission next nodes) := by
  induction nodes generalizing next with
  | nil => exact .ok _
  | cons first rest ih =>
    rw [blockFunctions]
    split
    · rename_i name defines
      have kept := definitions_cons_of_block defines rest
      rw [kept]
      refine .bind ((siblings_blames emission _ false false next first.children).imp
        fun _ _ wrong => ⟨first, mem_cons_self, wrong⟩) ?_
      intro value
      refine .bind ((ih _).imp ?_) fun _ => .ok _
      rintro node cause ⟨definition, member, wrong⟩
      exact ⟨definition, mem_cons_of_mem first member, wrong⟩
    · rename_i other
      rw [definitions_cons_of_other other]
      exact ih next

theorem Faulty.congr {left right : List Text} (same : ∀ name, name ∈ left ↔ name ∈ right)
    (faulty : Faulty left nodes node cause) : Faulty right nodes node cause := by
  cases faulty with
  | undefined inner named unknown => exact .undefined inner named (mt (same _).mpr unknown)
  | filled inner named more => exact .filled inner named more
  | matrix inner isMatrix other => exact .matrix inner isMatrix other
  | stray inner plain unnamed alone => exact .stray inner plain unnamed alone

theorem FaultyAfter.refused (faulty : FaultyAfter names false nodes node cause)
    (same : ∀ name, name ∈ names ↔ name ∈ definedNames roots)
    (outer : nodes ∈ contents roots :: (definitions roots).map (·.children))
    (within : allNodes nodes ⊆ allNodes (bodies roots)) : Refused roots node cause := by
  rcases faulty with ⟨rfl, alone⟩ | inside
  · exact .stray outer alone
  · exact .inside ((inside.congr same).mono within)

theorem emit_blames (file : String) (output : Option Text) (roots : List Node) :
    Blames (Refused roots) (emit file output roots) := by
  intro violation failed
  unfold emit at failed
  rcases bind_eq_error.mp failed with twice | ⟨names, collected, failed⟩
  · obtain ⟨node, line, name, before, after, same, split, defines, again⟩ :=
      definedBlocks_blames _ [] roots violation twice
    rw [same]
    refine ⟨node, line, .twice split defines (again.resolve_left ?_)⟩
    exact not_mem_nil
  · have same : ∀ name, name ∈ names ↔ name ∈ definedNames roots := by
      rw [(definedBlocks_eq_ok.mp collected).2]
      simp
    rcases bind_eq_error.mp failed with inDefinition | ⟨functions, _, failed⟩
    · obtain ⟨node, line, definition, member, wrong⟩ := blockFunctions_blames _ 0 roots violation
        inDefinition
      refine ⟨node, line, wrong.refused same (mem_cons_of_mem _ (mem_map_of_mem member)) ?_⟩
      intro inner below
      obtain ⟨child, among, within⟩ := mem_allNodes.mp below
      refine mem_allNodes.mpr ⟨child, mem_append_left _ ?_, within⟩
      exact mem_flatMap.mpr ⟨definition, member, among⟩
    · rcases bind_eq_error.mp failed with inContents | ⟨code, _, failed⟩
      · obtain ⟨node, line, wrong⟩ := siblings_blames _ none true false _ _ violation inContents
        refine ⟨node, line, wrong.refused same mem_cons_self ?_⟩
        rw [bodies, allNodes_append]
        exact subset_append_right _ _
      · cases output with
        | none => cases failed
        | some name => cases failed

theorem mem_allNodes_root (member : node ∈ roots) : node ∈ allNodes roots :=
  mem_allNodes.mpr ⟨node, member, node.mem_all_self⟩

theorem mem_allNodes_below {root : Node} (member : root ∈ roots) (below : node ∈ allNodes root.children) :
    node ∈ allNodes roots := by
  refine mem_allNodes.mpr ⟨root, member, ?_⟩
  rw [Node.all_eq]
  exact mem_cons_of_mem root below

theorem Refused.mem (refused : Refused roots node cause) : node ∈ allNodes roots := by
  cases refused with
  | twice split defines again =>
    have member : node ∈ definitions roots := by rw [split]; simp
    exact mem_allNodes_root (mem_filter.mp member).1
  | stray outer alone =>
    obtain ⟨before, after, split, _⟩ := alone
    have among : node ∈ before ++ node :: after := by simp
    rw [← split] at among
    rcases mem_cons.mp outer with rfl | ofDefinition
    · exact mem_allNodes_root (mem_filter.mp among).1
    · obtain ⟨definition, member, rfl⟩ := mem_map.mp ofDefinition
      exact mem_allNodes_below (mem_filter.mp member).1 (mem_allNodes_root among)
  | inside faulty =>
    obtain ⟨root, member, within⟩ := mem_allNodes.mp faulty.mem
    rcases mem_append.mp member with inDefinition | inContents
    · obtain ⟨definition, defines, below⟩ := mem_flatMap.mp inDefinition
      exact mem_allNodes_below (mem_filter.mp defines).1
        (mem_allNodes.mpr ⟨root, below, within⟩)
    · exact mem_allNodes.mpr ⟨root, (mem_filter.mp inContents).1, within⟩

theorem emit_noLinkFault (file : String) (output : Option Text) (roots : List Node)
    (complete : ∀ root ∈ roots, root.Complete) (violation : Violation)
    (failed : emit file output roots = .error violation) (name : String) :
    violation.cause ≠ .linkWithChildren name := by
  intro same
  obtain ⟨node, _, refused⟩ := emit_blames file output roots violation failed
  rw [same] at refused
  cases refused with
  | inside faulty =>
    cases faulty with
    | filled inner named more =>
      have each : ∀ body ∈ bodies roots, body.Complete ∧ body.isDefinition = false := by
        intro body member
        rcases mem_append.mp member with inDefinition | inContents
        · obtain ⟨definition, defines, below⟩ := mem_flatMap.mp inDefinition
          obtain ⟨shape, children⟩ := Node.complete_iff.mp (complete _ (mem_filter.mp defines).1)
          have whole := children body below
          exact ⟨whole, shape.not_definition (Node.complete_iff.mp whole).1 below⟩
        · obtain ⟨among, plain⟩ := mem_filter.mp inContents
          exact ⟨complete body among, by simpa using plain⟩
      have plain := not_definition_of_mem (fun body member => (each body member).1)
        (fun body member => (each body member).2) inner
      obtain ⟨body, among, within⟩ := mem_allNodes.mp inner
      have shape := (each body among).1 node within
      unfold Node.blockName? at named
      unfold Node.isDefinition at plain
      split at named
      · rename_i own link kind
        rw [kind] at plain
        cases link with
        | true => exact more (shape.link own kind)
        | false => cases plain
      · cases named

end PageScript.Template
