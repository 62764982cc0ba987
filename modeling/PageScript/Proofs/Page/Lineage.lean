import PageScript.Page.Renderer
import PageScript.Proofs.Keyed
import PageScript.Proofs.Page.Fragment

/-! Rendered snippets as trees, which are recovered from the list of snippets by their parents. -/

open List

namespace PageScript

open Keyed

/-- A rendered snippet, its entry in the payload, and what was rendered from it. -/
structure Lineage where
  snippet : Snippet
  entry : SnippetPayload
  children : List Lineage

variable {lineage : Lineage} {parent : String}

namespace Lineage

variable (forest : List Lineage)

def key (lineage : Lineage) : String :=
  lineage.snippet.key

mutual

def nodes : Lineage → List Lineage
  | ⟨snippet, entry, children⟩ => ⟨snippet, entry, children⟩ :: nodesAll children

def nodesAll : List Lineage → List Lineage
  | [] => []
  | lineage :: rest => nodes lineage ++ nodesAll rest

end

mutual

def entries : Lineage → Keyed SnippetPayload
  | ⟨snippet, entry, children⟩ => entriesAll children ++ [(snippet.key, entry)]

def entriesAll : List Lineage → Keyed SnippetPayload
  | [] => []
  | lineage :: rest => entries lineage ++ entriesAll rest

end

theorem nodes_eq (lineage : Lineage) : lineage.nodes = lineage :: nodesAll lineage.children := by
  cases lineage
  rw [nodes]

theorem entries_eq (lineage : Lineage) :
    lineage.entries = entriesAll lineage.children ++ [(lineage.key, lineage.entry)] := by
  cases lineage
  rw [entries, key]

private theorem nodesAll_cons (lineage : Lineage) (rest : List Lineage) :
    nodesAll (lineage :: rest) = lineage :: nodesAll lineage.children ++ nodesAll rest := by
  rw [nodesAll, nodes_eq]

theorem nodesAll_singleton (lineage : Lineage) : nodesAll [lineage] = lineage.nodes := by
  rw [nodesAll, nodesAll, append_nil]

theorem nodesAll_append (left right : List Lineage) :
    nodesAll (left ++ right) = nodesAll left ++ nodesAll right := by
  induction left with
  | nil => rfl
  | cons lineage rest ih => rw [cons_append, nodesAll, nodesAll, ih, append_assoc]

theorem entriesAll_append (left right : List Lineage) :
    entriesAll (left ++ right) = entriesAll left ++ entriesAll right := by
  induction left with
  | nil => rfl
  | cons lineage rest ih => rw [cons_append, entriesAll, entriesAll, ih, append_assoc]

private theorem nodesAll_eq_flatMap : nodesAll forest = forest.flatMap nodes := by
  induction forest with
  | nil => rfl
  | cons lineage rest ih => rw [nodesAll, flatMap_cons, ih]

private theorem forest_induct {motive : List Lineage → Prop} (nil : motive [])
    (cons : ∀ first rest, motive first.children → motive rest → motive (first :: rest)) :
    ∀ forest, motive forest
  | [] => nil
  | first :: rest =>
    cons first rest (forest_induct nil cons first.children) (forest_induct nil cons rest)
termination_by forest => sizeOf forest
decreasing_by
  · cases first
    simp only [List.cons.sizeOf_spec, Lineage.mk.sizeOf_spec]
    omega
  · simp only [List.cons.sizeOf_spec]
    omega

private theorem mem_nodesAll_self {forest : List Lineage} (member : lineage ∈ forest) :
    lineage ∈ nodesAll forest := by
  rw [nodesAll_eq_flatMap, mem_flatMap]
  refine ⟨lineage, member, ?_⟩
  rw [nodes_eq]
  exact mem_cons_self

theorem entriesAll_perm :
    (entriesAll forest).Perm ((nodesAll forest).map fun lineage => (lineage.key, lineage.entry)) := by
  induction forest using forest_induct with
  | nil => exact .nil
  | cons first rest below after =>
    rw [entriesAll, entries_eq, nodesAll_cons, map_append, map_cons]
    exact ((List.perm_append_comm.trans (below.cons _))).append after

/-- A snippet is linked with those rendered from it: they name it as their parent, and its entry lists
their keys in order. -/
structure Linked (lineage : Lineage) : Prop where
  parents : ∀ child ∈ lineage.children, child.snippet.parent = some lineage.key
  listed : lineage.entry.snippets = lineage.children.map key

def LinkedAll (forest : List Lineage) : Prop :=
  ∀ lineage ∈ nodesAll forest, lineage.Linked

theorem linkedAll_cons {rest : List Lineage} :
    LinkedAll (lineage :: rest) ↔ lineage.Linked ∧ LinkedAll lineage.children ∧ LinkedAll rest := by
  unfold LinkedAll
  rw [nodesAll_cons]
  simp only [cons_append, mem_cons, mem_append, forall_eq_or_imp]
  constructor
  · rintro ⟨own, others⟩
    exact ⟨own, fun inner member => others inner (.inl member),
      fun inner member => others inner (.inr member)⟩
  · rintro ⟨own, below, after⟩
    refine ⟨own, ?_⟩
    rintro inner (member | member)
    · exact below inner member
    · exact after inner member

def keysAll (forest : List Lineage) : List String :=
  (nodesAll forest).map key

private theorem keysAll_cons (lineage : Lineage) (rest : List Lineage) :
    keysAll (lineage :: rest) = lineage.key :: (keysAll lineage.children ++ keysAll rest) := by
  rw [keysAll, nodesAll_cons, cons_append, map_cons, map_append]
  rfl

def isChildOf (parent : String) (lineage : Lineage) : Bool :=
  lineage.snippet.parent == some parent

theorem isChildOf_iff : lineage.isChildOf parent = true ↔ lineage.snippet.parent = some parent := by
  rw [isChildOf, beq_iff_eq]

theorem isChildOf_of_ne {child : Lineage} (linked : lineage.Linked) (member : child ∈ lineage.children)
    (differs : lineage.key ≠ parent) : child.isChildOf parent = false := by
  rw [Bool.eq_false_iff]
  intro named
  have actual := linked.parents child member
  rw [isChildOf_iff.mp named, Option.some.injEq] at actual
  exact differs actual.symm

private theorem filter_children_of_ne (linked : lineage.Linked) (differs : lineage.key ≠ parent) :
    lineage.children.filter (isChildOf parent) = [] := by
  rw [filter_eq_nil_iff]
  intro child member named
  rw [isChildOf_of_ne linked member differs] at named
  cases named

private theorem filter_isChildOf_of_absent (parent : String) (forest : List Lineage)
    (linked : LinkedAll forest) (absent : parent ∉ keysAll forest) :
    (nodesAll forest).filter (isChildOf parent) = forest.filter (isChildOf parent) := by
  induction forest using forest_induct with
  | nil => rfl
  | cons first rest below after =>
    obtain ⟨own, inner, others⟩ := linkedAll_cons.mp linked
    rw [keysAll_cons, mem_cons, mem_append, not_or, not_or] at absent
    obtain ⟨differs, absentBelow, absentAfter⟩ := absent
    rw [nodesAll_cons, cons_append, filter_cons, filter_cons, filter_append,
      below inner absentBelow, after others absentAfter,
      filter_children_of_ne own (Ne.symm differs), nil_append]

private theorem filter_isChildOf (linked : LinkedAll forest)
    (distinct : (keysAll forest).Nodup) (lineage : Lineage) (member : lineage ∈ nodesAll forest)
    (outer : ∀ root ∈ forest, root.isChildOf lineage.key = false) :
    (nodesAll forest).filter (isChildOf lineage.key) = lineage.children := by
  induction forest using forest_induct with
  | nil => cases member
  | cons first rest below after =>
    obtain ⟨own, inner, others⟩ := linkedAll_cons.mp linked
    rw [keysAll_cons, nodup_cons, mem_append, not_or, nodup_append] at distinct
    obtain ⟨⟨firstBelow, firstAfter⟩, distinctBelow, distinctAfter, apart⟩ := distinct
    have outerRest : ∀ root ∈ rest, root.isChildOf lineage.key = false := fun root within =>
      outer root (mem_cons_of_mem _ within)
    have noneAfter (absent : lineage.key ∉ keysAll rest) :
        (nodesAll rest).filter (isChildOf lineage.key) = [] := by
      rw [filter_isChildOf_of_absent _ _ others absent, filter_eq_nil_iff]
      intro root within named
      rw [outerRest root within] at named
      cases named
    rw [nodesAll_cons, cons_append, filter_cons, outer first mem_cons_self,
      if_neg Bool.false_ne_true, filter_append]
    rw [nodesAll_cons, cons_append, mem_cons, mem_append] at member
    rcases member with same | within | later
    · -- the first one itself
      subst same
      rw [noneAfter firstAfter, append_nil, filter_isChildOf_of_absent _ _ inner firstBelow]
      exact filter_eq_self.mpr fun child within => isChildOf_iff.mpr (own.parents child within)
    · -- inside the first one
      have present : lineage.key ∈ keysAll first.children := mem_map_of_mem within
      have differs : first.key ≠ lineage.key := by
        intro same
        rw [same] at firstBelow
        exact firstBelow present
      have absent : lineage.key ∉ keysAll rest := fun again =>
        apart lineage.key present lineage.key again rfl
      rw [noneAfter absent, append_nil]
      exact below inner distinctBelow within fun root held => isChildOf_of_ne own held differs
    · -- after it
      have present : lineage.key ∈ keysAll rest := mem_map_of_mem later
      have absent : lineage.key ∉ keysAll first.children := fun again =>
        apart lineage.key again lineage.key present rfl
      have differs : first.key ≠ lineage.key := by
        intro same
        rw [same] at firstAfter
        exact firstAfter present
      rw [filter_isChildOf_of_absent _ _ inner absent, filter_children_of_ne own differs,
        nil_append]
      exact after others distinctAfter later outerRest

private theorem parent_before (linked : LinkedAll forest) {left right : List Lineage}
    (split : nodesAll forest = left ++ lineage :: right) :
    lineage ∈ forest ∨ ∃ before ∈ left, lineage.snippet.parent = some before.key := by
  induction forest using forest_induct generalizing left right with
  | nil => cases left <;> cases split
  | cons first rest below after =>
    obtain ⟨own, inner, others⟩ := linkedAll_cons.mp linked
    rw [nodesAll_cons, cons_append] at split
    cases left with
    | nil =>
      cases split
      exact .inl mem_cons_self
    | cons earliest left =>
      rw [cons_append, List.cons.injEq] at split
      obtain ⟨rfl, split⟩ := split
      rcases append_eq_append_cons split with ⟨more, belowIs⟩ | ⟨more, rfl, restIs⟩
      · rcases below inner belowIs with child | ⟨before, within, named⟩
        · exact .inr ⟨first, mem_cons_self, own.parents _ child⟩
        · exact .inr ⟨before, mem_cons_of_mem _ within, named⟩
      · rcases after others restIs with root | ⟨before, within, named⟩
        · exact .inl (mem_cons_of_mem _ root)
        · exact .inr ⟨before, mem_cons_of_mem _ (mem_append_right _ within), named⟩

theorem find?_key {list : List Lineage} (distinct : (list.map key).Nodup) (member : lineage ∈ list) :
    list.find? (·.key == lineage.key) = some lineage := by
  induction list with
  | nil => cases member
  | cons first rest ih =>
    rw [map_cons, nodup_cons] at distinct
    rcases mem_cons.mp member with same | later
    · subst same
      exact find?_cons_of_pos (beq_self_eq_true _)
    · have differs : ¬ (first.key == lineage.key) = true := by
        rw [beq_iff_eq]
        intro same
        exact distinct.1 (same ▸ mem_map_of_mem later)
      have skipped : (first :: rest).find? (·.key == lineage.key) =
          rest.find? (·.key == lineage.key) := find?_cons_of_neg differs
      rw [skipped]
      exact ih distinct.2 later

private theorem nodes_sublist (member : lineage ∈ nodesAll forest) :
    lineage.nodes.Sublist (nodesAll forest) := by
  induction forest using forest_induct with
  | nil => cases member
  | cons first rest within after =>
    rw [nodesAll_cons, cons_append, mem_cons, mem_append] at member
    rcases member with same | held | later
    · rw [same, nodesAll]
      exact sublist_append_left _ _
    · rw [nodesAll_cons, cons_append]
      exact ((within held).trans (sublist_append_left _ _)).cons _
    · rw [nodesAll_cons, cons_append]
      exact ((after later).trans (sublist_append_right _ _)).cons _

private theorem length_nodes_child {child : Lineage} (below : child ∈ lineage.children) :
    child.nodes.length < lineage.nodes.length := by
  have part : child.nodes.Sublist (nodesAll lineage.children) := by
    rw [nodesAll_eq_flatMap]
    obtain ⟨before, after, same⟩ := append_of_mem below
    rw [same, flatMap_append, flatMap_cons]
    exact (sublist_append_left _ _).trans (sublist_append_right _ _)
  rw [nodes_eq lineage, length_cons]
  exact Nat.lt_succ_of_le part.length_le

/-- What composing a snippet gives: a fragment with the own markup of all snippets in it, and the
markup of each of them by key. -/
structure Composed (lineage : Lineage) (result : Fragment × Keyed Text) : Prop where
  owned : result.1.owned = lineage.nodes.map fun inner => (inner.key, inner.snippet.html)
  keys : (Keyed.keys result.2).Perm (lineage.nodes.map key)
  own : get? result.2 lineage.key = some result.1.render

theorem Composed.ownedAll {children : List Lineage} {result : Lineage → Fragment × Keyed Text}
    (composed : ∀ child ∈ children, child.Composed (result child)) :
    ((children.map result).flatMap fun child => child.1.owned) =
      (nodesAll children).map fun inner => (inner.key, inner.snippet.html) := by
  induction children with
  | nil => rfl
  | cons child rest ih =>
    have others := ih fun other member => composed other (mem_cons_of_mem _ member)
    rw [map_cons, flatMap_cons, nodesAll, map_append, others,
      (composed child mem_cons_self).owned]

theorem Composed.keysAll {children : List Lineage} {result : Lineage → Fragment × Keyed Text}
    (composed : ∀ child ∈ children, child.Composed (result child)) :
    (Keyed.keys ((children.map result).flatMap Prod.snd)).Perm (keysAll children) := by
  induction children with
  | nil => exact .nil
  | cons child rest ih =>
    have others := ih fun other member => composed other (mem_cons_of_mem _ member)
    rw [map_cons, flatMap_cons, Keyed.keys, map_append, Lineage.keysAll, nodesAll,
      map_append]
    exact (composed child mem_cons_self).keys.append others

private theorem owned_foldl_insert (fragment : Fragment) (children : List (Fragment × Keyed Text)) :
    (children.foldl (fun all child => all.insert child.1) fragment).owned =
      fragment.owned ++ children.flatMap fun child => child.1.owned := by
  induction children generalizing fragment with
  | nil => rw [foldl_nil, flatMap_nil, append_nil]
  | cons child rest ih =>
    rw [foldl_cons, ih, Fragment.owned_insert, flatMap_cons, append_assoc]

private theorem foldl_putAll (keyed : Keyed Text) (children : List (Fragment × Keyed Text)) :
    children.foldl (fun all child => putAll child.2 all) keyed =
      putAll (children.flatMap Prod.snd) keyed := by
  induction children generalizing keyed with
  | nil => rfl
  | cons child rest ih => rw [foldl_cons, ih, flatMap_cons, putAll_append]

/-- The lineage of a whole page: it has no parent, and its keys are distinct. -/
structure Whole (root : Lineage) : Prop where
  linked : LinkedAll [root]
  outermost : root.snippet.parent = none
  distinct : (root.nodes.map key).Nodup

namespace Whole

variable {root : Lineage} (whole : root.Whole)

include whole

private theorem filter_parent (member : lineage ∈ root.nodes) :
    (root.nodes.map snippet).filter (·.parent == some lineage.key) =
      lineage.children.map snippet := by
  have outer : ∀ other ∈ [root], other.isChildOf lineage.key = false := by
    intro other within
    rw [mem_singleton.mp within, isChildOf, whole.outermost]
    rfl
  have distinct : (keysAll [root]).Nodup := by
    rw [keysAll, nodesAll_singleton]
    exact whole.distinct
  rw [← nodesAll_singleton] at member ⊢
  rw [← filter_isChildOf [root] whole.linked distinct lineage member outer, filter_map]
  rfl

theorem compose_composed (fuel : Nat) : ∀ lineage ∈ root.nodes, lineage.nodes.length ≤ fuel →
      lineage.Composed (compose (root.nodes.map snippet) fuel lineage.key) := by
  induction fuel with
  | zero =>
    intro lineage _ enough
    rw [nodes_eq] at enough
    cases enough
  | succ fuel ih =>
    intro lineage member enough
    have part : lineage.nodes.Sublist root.nodes := by
      rw [← nodesAll_singleton root] at member ⊢
      exact nodes_sublist [root] member
    have composed : ∀ child ∈ lineage.children,
        child.Composed (compose (root.nodes.map snippet) fuel child.key) := by
      intro child below
      have shorter := length_nodes_child below
      have within : child ∈ lineage.nodes := by
        rw [nodes_eq]
        exact mem_cons_of_mem _ (mem_nodesAll_self below)
      exact ih child (part.mem within) (by omega)
    have found : (root.nodes.map snippet).find? (·.key == lineage.key) = some lineage.snippet := by
      rw [find?_map]
      exact congrArg (Option.map snippet) (find?_key whole.distinct member)
    have distinct : (lineage.nodes.map key).Nodup := whole.distinct.sublist (part.map key)
    rw [nodes_eq, map_cons, nodup_cons] at distinct
    rw [compose, found, whole.filter_parent member, map_map]
    -- the recursion goes over the children as `filter_parent` finds them in the list
    have results : (lineage.children.map
        ((fun child : Snippet => compose (root.nodes.map snippet) fuel child.key) ∘ snippet)) =
        lineage.children.map fun child => compose (root.nodes.map snippet) fuel child.key := rfl
    rw [results]
    refine ⟨?_, ?_, get?_put_self _ _ _⟩
    · rw [owned_foldl_insert, Composed.ownedAll composed, nodes_eq lineage]
      rfl
    · have inner := Composed.keysAll composed
      have below := (keys_putAll_nil_perm (inner.nodup_iff.mpr distinct.2)).trans inner
      have absent := fun again => distinct.1 (below.mem_iff.mp again)
      rw [foldl_putAll, nodes_eq lineage, map_cons]
      refine (keys_put_perm absent _).trans ?_
      exact below.cons _

theorem filter_outermost :
    ((root.nodes.map snippet).filter (·.parent.isNone)).map Snippet.key = [root.key] := by
  have others : ∀ lineage ∈ nodesAll root.children, lineage.snippet.parent.isNone = false := by
    intro lineage member
    obtain ⟨left, right, split⟩ := append_of_mem member
    have inner := (linkedAll_cons.mp whole.linked).2.1
    rcases parent_before root.children inner split with child | ⟨before, _, named⟩
    · rw [(linkedAll_cons.mp whole.linked).1.parents lineage child]
      rfl
    · rw [named]
      rfl
  have none : ((nodesAll root.children).map snippet).filter (·.parent.isNone) = [] := by
    rw [filter_eq_nil_iff]
    intro inner member absent
    obtain ⟨lineage, within, rfl⟩ := mem_map.mp member
    rw [others lineage within] at absent
    cases absent
  rw [nodes_eq, map_cons, filter_cons, whole.outermost, none]
  rfl

theorem parent_before {left right : List Snippet} {inner : Snippet}
    (split : root.nodes.map snippet = left ++ inner :: right) (named : inner.parent = some parent) :
    parent ∈ left.map Snippet.key := by
  obtain ⟨before, later, nodesAre, rfl, rest⟩ := map_eq_append_iff.mp split
  obtain ⟨lineage, after, rfl, rfl, rfl⟩ := map_eq_cons_iff.mp rest
  rw [← nodesAll_singleton] at nodesAre
  rcases Lineage.parent_before [root] whole.linked nodesAre with first | ⟨earlier, within, actual⟩
  · rw [mem_singleton.mp first, whole.outermost] at named
    cases named
  · rw [actual, Option.some.injEq] at named
    rw [← named, map_map]
    exact mem_map_of_mem within

theorem keys_entries : (Keyed.keys (putAll root.entries [])).Perm (root.nodes.map key) ∧
      (Keyed.keys root.entries).Nodup := by
  have made := (entriesAll_perm [root]).map Prod.fst
  rw [nodesAll_singleton, map_map, entriesAll, entriesAll, append_nil] at made
  have distinct : (Keyed.keys root.entries).Nodup := made.nodup_iff.mpr whole.distinct
  exact ⟨(keys_putAll_nil_perm distinct).trans made, distinct⟩

theorem entry_listed {inner : Snippet} (member : inner ∈ root.nodes.map snippet) :
    ∃ entry, get? (putAll root.entries []) inner.key = some entry ∧
      entry.snippets =
        ((root.nodes.map snippet).filter (·.parent == some inner.key)).map Snippet.key := by
  obtain ⟨lineage, within, rfl⟩ := mem_map.mp member
  have made := entriesAll_perm [root]
  rw [nodesAll_singleton, entriesAll, entriesAll, append_nil] at made
  have held : (lineage.key, lineage.entry) ∈ root.entries :=
    made.mem_iff.mpr (mem_map.mpr ⟨lineage, within, rfl⟩)
  have linked : lineage.Linked := by
    rw [← nodesAll_singleton] at within
    exact whole.linked lineage within
  refine ⟨lineage.entry, get?_putAll_of_mem whole.keys_entries.2 held, ?_⟩
  have children := whole.filter_parent within
  rw [key] at children
  rw [children, linked.listed, map_map]
  rfl

def markup (root : Lineage) : Keyed Text :=
  (compose (root.nodes.map snippet) ((root.nodes.map snippet).length + 1) root.key).2

private theorem composed : root.Composed
      (compose (root.nodes.map snippet) ((root.nodes.map snippet).length + 1) root.key) := by
  have member : root ∈ root.nodes := by
    rw [nodes_eq]
    exact mem_cons_self
  refine whole.compose_composed _ root member ?_
  rw [length_map]
  exact Nat.le_succ _

theorem keys_markup : (Keyed.keys (markup root)).Perm (root.nodes.map key) :=
  whole.composed.keys

theorem body_marked : ∃ marked : List (String × Char),
      get? (markup root) root.key = some (marked.map Prod.snd) ∧
      marked.Perm ((root.nodes.map snippet).flatMap fun inner => inner.html.map (inner.key, ·)) ∧
      ∀ inner ∈ root.nodes.map snippet,
        (marked.filter (·.1 == inner.key)).map Prod.snd = inner.html := by
  have composed := whole.composed
  generalize fragmentIs : (compose (root.nodes.map snippet) ((root.nodes.map snippet).length + 1)
    root.key).1 = fragment
  have owned := composed.owned
  rw [fragmentIs] at owned
  refine ⟨fragment.marked, ?_, ?_, ?_⟩
  · rw [Fragment.marked_text, ← fragmentIs]
    exact composed.own
  · have perm := fragment.marked_perm
    rw [owned, flatMap_map] at perm
    rw [flatMap_map]
    exact perm
  · intro inner member
    obtain ⟨lineage, within, rfl⟩ := mem_map.mp member
    have distinct : (fragment.owned.map Prod.fst).Nodup := by
      rw [owned, map_map]
      exact whole.distinct
    have own : (lineage.key, lineage.snippet.html) ∈ fragment.owned := by
      rw [owned]
      exact mem_map.mpr ⟨lineage, within, rfl⟩
    have share := fragment.filter_marked distinct _ own
    rw [show lineage.snippet.key = lineage.key from rfl, share, map_map]
    exact map_id _

end Whole

end Lineage

end PageScript
