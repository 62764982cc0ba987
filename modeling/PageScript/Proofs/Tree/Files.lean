import PageScript.Page.Linker
import PageScript.Proofs.Tree

/-! The files of a tree. -/

open List

namespace PageScript

variable {tree after : Tree} {place : Location} {path : Path}

namespace Tree

/-- A part of a path that names an entry of a folder. -/
structure Proper (part : String) : Prop where
  full : ¬ (part = "" ∨ part = ".")
  down : part ≠ ".."
  short : ¬ maxName < part.utf8ByteSize
  whole : '/' ∉ part.toList

/-- A place with folders all the way to it and no link on the way or at its end. -/
inductive Stands (tree : Tree) : Location → Prop where
  | root : Stands tree []
  | step {place : Location} {part : String} {entry : Entry} (outer : Stands tree place)
      (folder : tree.entry? place = some .folder) (proper : Proper part)
      (found : tree.entry? (place ++ [part]) = some entry)
      (noLink : ∀ target, entry = .link target → False) : Stands tree (place ++ [part])

theorem Stands.dropLast (stands : tree.Stands place) : tree.Stands place.dropLast := by
  cases stands with
  | root => exact .root
  | step outer =>
    rw [dropLast_concat]
    exact outer

theorem Stands.proper (stands : tree.Stands place) : ∀ part ∈ place, Proper part := by
  induction stands with
  | root => nofun
  | step _ _ proper _ _ ih =>
    intro part member
    rcases mem_append.mp member with before | last
    · exact ih part before
    · rw [mem_singleton.mp last]
      exact proper

theorem whole_segments (path : Path) : ∀ part ∈ segments path, '/' ∉ part.toList := by
  intro part member
  obtain ⟨chars, within, rfl⟩ := mem_map.mp member
  rw [String.toList_ofList]
  exact Text.not_mem_of_mem_splitOn within

theorem Leads.stands {links : Nat} {parts : List String} {result : Location}
    (leads : tree.Leads links place parts result) (stands : tree.Stands place)
    (whole : ∀ part ∈ parts, '/' ∉ part.toList) : tree.Stands result := by
  induction leads with
  | here => exact stands
  | stay _ _ _ ih => exact ih stands (forall_mem_cons.mp whole).2
  | climb _ _ ih => exact ih stands.dropLast (forall_mem_cons.mp whole).2
  | enter folder named found noLink _ ih =>
    obtain ⟨first, others⟩ := forall_mem_cons.mp whole
    exact ih (.step stands folder ⟨named.full, named.down, named.short, first⟩ found noLink) others
  | @follow _ _ _ _ rest target _ _ _ _ _ ih =>
    refine ih ?_ fun part member => ?_
    · split
      · exact .root
      · exact stands
    · exact (mem_append.mp member).elim (whole_segments target part) ((forall_mem_cons.mp whole).2 part)

theorem whole_startOf (tree : Tree) (path : Path) :
    ∀ part ∈ tree.startOf path ++ segments path, '/' ∉ part.toList := by
  intro part member
  rcases mem_append.mp member with start | own
  · unfold startOf at start
    split at start
    · cases start
    · exact whole_segments _ part start
  · exact whole_segments path part own

theorem locate_stands (located : tree.locate path = .ok place) : tree.Stands place := by
  unfold locate at located
  split at located
  · cases located
  · exact (walk_eq_ok.mp located).stands .root (tree.whole_startOf path)

theorem Proper.named {part : String} (proper : Proper part) : Named part :=
  ⟨proper.full, proper.down, proper.short⟩

theorem Stands.leads (stands : tree.Stands place) {links : Nat} {rest : List String} {result : Location}
    (onward : tree.Leads links place rest result) : tree.Leads links [] (place ++ rest) result := by
  induction stands generalizing rest with
  | root => exact onward
  | step _ folder proper found noLink ih =>
    rw [append_assoc]
    exact ih (.enter folder proper.named found noLink onward)

theorem splitOn_textOf {first : Component} {parts : List Component}
    (inner : ∀ part ∈ first :: parts, part ≠ .root ∧ '/' ∉ part.text) :
    Text.splitOn '/' (Path.textOf (first :: parts)) = (first :: parts).map Component.text := by
  induction parts generalizing first with
  | nil => exact Text.splitOn_of_not_mem (inner first mem_cons_self).2
  | cons second parts ih =>
    obtain ⟨⟨below, own⟩, others⟩ := forall_mem_cons.mp inner
    have rest := ih others
    rw [Path.textOf, Text.splitOn_append own, rest]
    · rfl
    · exact fun none => nomatch none
    · exact below

theorem text_ofComponents (parts : List Component) :
    (Path.ofComponents (.root :: parts)).text.toList = '/' :: Path.textOf parts := by
  unfold Path.ofComponents
  rw [String.toList_ofList]
  cases parts with
  | nil => rfl
  | cons first rest => rw [Path.textOf]; nofun

theorem isAbsolute_ofComponents (parts : List Component) :
    (Path.ofComponents (.root :: parts)).isAbsolute = true := by
  rw [Path.isAbsolute, text_ofComponents]
  rfl

theorem text_pathOf (place : Location) :
    (pathOf place).text.toList = '/' :: Path.textOf (place.map .normal) :=
  text_ofComponents _

theorem isAbsolute_pathOf (place : Location) : (pathOf place).isAbsolute = true :=
  isAbsolute_ofComponents _

theorem pathOf_ne_empty (place : Location) : (pathOf place).text ≠ "" := by
  intro empty
  have chars := text_pathOf place
  rw [empty] at chars
  cases chars

private theorem segments_ofComponents {names : List String} (some : names ≠ [])
    (whole : ∀ name ∈ names, '/' ∉ name.toList) : segments (.ofComponents (names.map .normal)) = names := by
  cases names with
  | nil => exact absurd rfl some
  | cons first names =>
    have inner : ∀ part ∈ (first :: names).map Component.normal, part ≠ .root ∧ '/' ∉ part.text := by
      intro part member
      obtain ⟨name, within, rfl⟩ := mem_map.mp member
      exact ⟨nofun, whole name within⟩
    rw [segments, Path.ofComponents, String.toList_ofList, map_cons, splitOn_textOf inner, ← map_cons, map_map,
      map_map]
    exact map_id'' (fun _ => String.ofList_toList) _

theorem segments_pathOf (whole : ∀ name ∈ place, '/' ∉ name.toList) :
    segments (pathOf place) = if place = [] then ["", ""] else "" :: place := by
  have lead : segments (pathOf place) = "" :: segments (.ofComponents (place.map .normal)) := by
    rw [segments, segments, text_pathOf, ← nil_append ('/' :: _), Text.splitOn_append not_mem_nil,
      Path.ofComponents, String.toList_ofList]
    rfl
  rw [lead]
  split
  · rename_i root
    rw [root]
    rfl
  · rename_i some
    rw [segments_ofComponents some whole]

theorem walk_pathOf (whole : ∀ name ∈ place, '/' ∉ name.toList) (links : Nat) :
    tree.walk links [] (segments (pathOf place)) = tree.walk links [] place := by
  rw [segments_pathOf whole]
  split
  · rename_i root
    rw [root, walk_stay rfl (.inl rfl), walk_stay rfl (.inl rfl)]
  · exact walk_stay rfl (.inl rfl)

theorem locate_pathOf (whole : ∀ name ∈ place, '/' ∉ name.toList) :
    tree.locate (pathOf place) = tree.walk maxLinks [] place := by
  rw [locate, if_neg (by simpa using pathOf_ne_empty place), startOf, if_pos (isAbsolute_pathOf place)]
  exact walk_pathOf whole maxLinks

theorem Stands.locate_pathOf (stands : tree.Stands place) : tree.locate (pathOf place) = .ok place := by
  have reached := stands.leads (@Leads.here tree maxLinks place)
  rw [append_nil] at reached
  rw [Tree.locate_pathOf fun name member => (stands.proper name member).whole]
  exact reached.walk

theorem canonical_pathOf (located : tree.locate path = .ok place) :
    tree.canonical path = pathOf place ∧ tree.canonical (pathOf place) = pathOf place := by
  have again := (locate_stands located).locate_pathOf
  unfold canonical
  rw [located, again]
  exact ⟨rfl, rfl⟩

def isFileEntry : Entry → Bool
  | .file _ | .binary => true
  | .folder | .link _ => false

def filePlaces (tree : Tree) : List Location :=
  (tree.entries.filter (isFileEntry ·.2)).map (·.1)

theorem length_filePlaces_le (tree : Tree) : tree.filePlaces.length ≤ tree.entries.length := by
  rw [filePlaces, length_map]
  exact length_filter_le _ _

theorem find?_of_isFile (isFile : tree.isFile path = true) :
    ∃ entry, tree.find? path = .ok entry ∧ isFileEntry entry = true := by
  unfold Tree.isFile at isFile
  split at isFile
  · rename_i text found
    exact ⟨.file text, found, rfl⟩
  · rename_i found
    exact ⟨.binary, found, rfl⟩
  · cases isFile

theorem locate_of_isFile (isFile : tree.isFile path = true) :
    ∃ place ∈ tree.filePlaces, tree.locate path = .ok place := by
  obtain ⟨entry, found, file⟩ := find?_of_isFile isFile
  obtain ⟨place, placed, stands⟩ := find?_eq_ok.mp found
  obtain ⟨_, located⟩ := place?_eq_ok.mp placed
  refine ⟨place, ?_, located⟩
  unfold entry? at stands
  split at stands
  · cases stands
    cases file
  · exact mem_map.mpr ⟨_, mem_filter.mpr ⟨mem_of_lookup stands, file⟩, rfl⟩

private theorem filePlaces_put {entry : Entry} (free : tree.entry? place = none)
    (other : isFileEntry entry = false) : (tree.put place entry).filePlaces = tree.filePlaces := by
  have kept : tree.entries.filter (·.1 != place) = tree.entries := by
    rw [filter_eq_self]
    intro item member
    unfold entry? at free
    split at free
    · cases free
    rw [bne_comm]
    exact lookup_eq_none_iff.mp free item member
  unfold put filePlaces
  rw [kept, filter_cons_of_neg (by rw [other]; exact Bool.false_ne_true)]

theorem makeFolder_eq_ok (made : tree.makeFolder path = .ok after) :
    ∃ place, tree.newPlace? path = .ok place ∧ tree.entry? place = none ∧ after = tree.put place .folder := by
  obtain ⟨place, placed, done⟩ := bind_eq_ok.mp made
  split at done
  · cases done
  · rename_i free
    cases done
    exact ⟨place, placed, free, rfl⟩

theorem makeLink_eq_ok {target : Path} (made : tree.makeLink path target = .ok after) :
    ∃ place, tree.newPlace? path = .ok place ∧ tree.entry? place = none ∧
      after = tree.put place (.link target) := by
  obtain ⟨_, _, made⟩ := bind_eq_ok.mp made
  obtain ⟨place, placed, done⟩ := bind_eq_ok.mp made
  split at done
  · cases done
  · rename_i free
    cases done
    exact ⟨place, placed, free, rfl⟩

theorem makeMissing_induct (holds : Tree → Prop) {paths : List Path} (start : holds tree)
    (step : ∀ {tree made path}, path ∈ paths → holds tree → tree.makeFolder path = .ok made → holds made)
    (made : tree.makeMissing paths = .ok after) : holds after := by
  induction paths generalizing after with
  | nil => cases made
  | cons path outer ih =>
    unfold makeMissing at made
    split at made
    · cases made
      exact start
    split at made
    · rename_i first
      cases made
      exact step mem_cons_self start first
    · obtain ⟨middle, above, made⟩ := bind_eq_ok.mp made
      have kept := ih (fun member => step (mem_cons_of_mem _ member)) above
      split at made
      · rename_i last
        cases made
        exact step mem_cons_self kept last
      · split at made
        · cases made
          exact kept
        · cases made
    · split at made
      · cases made
        exact start
      · cases made

end Tree

theorem Linker.filePlaces_link (linker : Linker) (tree : Tree) (path : String) :
    (linker.link tree path).2.filePlaces = tree.filePlaces := by
  unfold link
  split
  · rfl
  dsimp only
  split
  · rfl
  split
  · rfl
  split
  · rfl
  · rename_i folders
    have kept := Tree.makeMissing_induct (·.filePlaces = tree.filePlaces) rfl (fun _ same made => by
      obtain ⟨_, _, free, rfl⟩ := Tree.makeFolder_eq_ok made
      exact (Tree.filePlaces_put free rfl).trans same) folders
    split
    · exact kept
    · rename_i linked
      obtain ⟨_, _, free, made⟩ := Tree.makeLink_eq_ok linked
      rw [made, Tree.filePlaces_put free rfl, kept]

end PageScript
