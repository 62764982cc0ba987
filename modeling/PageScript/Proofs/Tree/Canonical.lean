import PageScript.Proofs.Tree.Walks

/-! The path by which a file is known. -/

namespace PageScript

open List

variable {part : Component} {parts : List Component}

namespace Path

/-- A component that is read back from its text, and stands between slashes. -/
structure Regular (part : Component) : Prop where
  read : component? part.text = some part
  whole : '/' ∉ part.text

theorem Regular.ne_root (regular : Regular part) : part ≠ .root := by
  rintro rfl
  cases regular.read

theorem regular_of_component? {chars : Text} (whole : '/' ∉ chars) (read : component? chars = some part) :
    Regular part := by
  have same : part.text = chars := by
    unfold component? at read
    split at read
    · cases read
    · split at read
      · rename_i up
        cases read
        exact up.symm
      · cases read
        exact String.toList_ofList
  exact ⟨by rwa [same], by rwa [same]⟩

theorem filterMap_component? (regular : ∀ part ∈ parts, Regular part) :
    (parts.map Component.text).filterMap component? = parts := by
  induction parts with
  | nil => rfl
  | cons part rest ih =>
    obtain ⟨first, others⟩ := forall_mem_cons.mp regular
    rw [map_cons, filterMap_cons_some first.read, ih others]

theorem components_ofComponents (regular : ∀ part ∈ parts, Regular part) :
    (ofComponents (.root :: parts)).components = .root :: parts := by
  have cut : (Text.splitOn '/' ('/' :: textOf parts)).filterMap component? = parts := by
    rw [show Text.splitOn '/' ('/' :: textOf parts) = [] :: Text.splitOn '/' (textOf parts) from
      Text.splitOn_append not_mem_nil _]
    cases parts with
    | nil => rfl
    | cons first rest =>
      rw [Tree.splitOn_textOf fun part member =>
        ⟨(regular part member).ne_root, (regular part member).whole⟩]
      exact filterMap_component? regular
  unfold components
  dsimp only
  rw [if_pos (Tree.isAbsolute_ofComponents parts), Tree.text_ofComponents, cut]
  rfl

def Rooted (done : List Component) : Prop :=
  ∃ parts, done = parts ++ [.root] ∧ ∀ part ∈ parts, Regular part

theorem Rooted.resolve {done : List Component} (rooted : Rooted done) (regular : Regular part) :
    Rooted (resolve done part) := by
  obtain ⟨parts, rfl, each⟩ := rooted
  have grown : Rooted (part :: (parts ++ [.root])) :=
    ⟨part :: parts, rfl, forall_mem_cons.mpr ⟨regular, each⟩⟩
  cases part with
  | root => exact absurd rfl regular.ne_root
  | current => cases regular.read
  | normal name =>
    cases parts with
    | nil => exact grown
    | cons first rest => exact grown
  | parent =>
    cases parts with
    | nil => exact grown
    | cons first rest =>
      have shrunk : Rooted (rest ++ [.root]) :=
        ⟨rest, rfl, fun part member => each part (mem_cons_of_mem _ member)⟩
      cases rest <;> cases first <;> exact shrunk

theorem Rooted.foldl_resolve (regular : ∀ part ∈ parts, Regular part) {done : List Component}
    (rooted : Rooted done) : Rooted (parts.foldl Path.resolve done) := by
  induction parts generalizing done with
  | nil => exact rooted
  | cons part rest ih =>
    obtain ⟨first, others⟩ := forall_mem_cons.mp regular
    exact ih others (rooted.resolve first)

def body (path : Path) : List Component :=
  (Text.splitOn '/' path.text.toList).filterMap component?

theorem regular_of_mem_body {path : Path} (member : part ∈ path.body) : Regular part := by
  obtain ⟨chars, within, read⟩ := mem_filterMap.mp member
  exact regular_of_component? (Text.not_mem_of_mem_splitOn within) read

private theorem normalize_of_isAbsolute {path : Path} (absolute : path.isAbsolute = true) :
    ∃ parts, path.normalize = ofComponents (.root :: parts) ∧ ∀ part ∈ parts, Regular part := by
  have components : path.components = .root :: path.body := by
    unfold Path.components
    dsimp only
    rw [if_pos absolute]
    rfl
  have start : Rooted (resolve [] .root) := ⟨[], rfl, fun _ member => nomatch member⟩
  obtain ⟨parts, reached, each⟩ := start.foldl_resolve fun _ => regular_of_mem_body
  refine ⟨parts.reverse, ?_, fun part member => each part (mem_reverse.mp member)⟩
  unfold normalize
  rw [components, foldl_cons, reached, reverse_append]
  rfl

end Path

namespace Tree

theorem Proper.regular {name : String} (proper : Proper name) : Path.Regular (.normal name) := by
  refine ⟨?_, proper.whole⟩
  unfold Path.component?
  rw [if_neg, if_neg]
  · exact congrArg (fun name => some (Component.normal name)) String.ofList_toList
  · intro up
    exact proper.down (String.toList_injective up)
  · rintro (empty | current)
    · exact proper.full (.inl (String.toList_injective empty))
    · exact proper.full (.inr (String.toList_injective current))

private theorem canonical_eq_ofComponents (tree : Tree) (path : Path) :
    ∃ parts, tree.canonical path = .ofComponents (.root :: parts) ∧
      ∀ part ∈ parts, Path.Regular part := by
  unfold canonical
  cases located : tree.locate path with
  | ok place =>
    refine ⟨place.map .normal, rfl, ?_⟩
    intro part member
    obtain ⟨name, within, rfl⟩ := mem_map.mp member
    exact ((locate_stands located).proper name within).regular
  | error fault =>
    apply Path.normalize_of_isAbsolute
    split
    · assumption
    · rename_i relative
      rw [Path.isAbsolute_join (pathOf_ne_empty _) (Bool.eq_false_iff.mpr relative)]
      exact isAbsolute_pathOf _

theorem canonical_eq_of_components {tree : Tree} {left right : Path}
    (same : (tree.canonical left).components = (tree.canonical right).components) :
    tree.canonical left = tree.canonical right := by
  obtain ⟨lefts, leftIs, regularLeft⟩ := tree.canonical_eq_ofComponents left
  obtain ⟨rights, rightIs, regularRight⟩ := tree.canonical_eq_ofComponents right
  rw [leftIs, rightIs, Path.components_ofComponents regularLeft,
    Path.components_ofComponents regularRight] at same
  rw [leftIs, rightIs, same]

end Tree

end PageScript
