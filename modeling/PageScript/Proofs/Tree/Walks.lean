import PageScript.Proofs.Tree.Files

/-! Walks through trees without links (`locate_join`). -/

open List

namespace PageScript

variable {path base : Path} {names : List String} {left right : Path}

namespace Path

/-- A text with one slash at its end at least. -/
def slashed (chars : Text) : Text :=
  if chars.getLast? = some '/' then chars else chars ++ ['/']

private theorem slashed_append (left : Text) {right : Text} (some : right ≠ []) :
    slashed (left ++ right) = left ++ slashed right := by
  unfold slashed
  rw [getLast?_append, Option.or_of_isSome (getLast?_isSome.mpr some)]
  split
  · rfl
  · rw [append_assoc]

theorem slashed_eq (chars : Text) :
    ∃ lead, slashed chars = lead ++ ['/'] ∧ (chars = lead ∨ chars = lead ++ ['/']) := by
  unfold slashed
  by_cases slash : chars.getLast? = some '/'
  · obtain ⟨lead, whole⟩ := getLast?_eq_some_iff.mp slash
    exact ⟨lead, by rw [if_pos slash, whole], .inr whole⟩
  · exact ⟨chars, by rw [if_neg slash], .inl rfl⟩

private theorem eq_of_toList (same : left.text.toList = right.text.toList) :
    left = right := by
  cases left
  cases right
  exact congrArg Path.mk (String.toList_inj.mp same)

private theorem toList_ne_nil (some : path.text ≠ "") : path.text.toList ≠ [] :=
  fun empty => some (String.toList_eq_nil_iff.mp empty)

theorem join_of_isAbsolute (absolute : path.isAbsolute = true) (base : Path) : base.join path = path :=
  if_pos absolute

theorem join_of_empty (empty : base.text = "") (path : Path) : base.join path = path := by
  unfold join
  split
  · rfl
  · simp [empty]

private theorem toList_join (some : base.text ≠ "") (relative : path.isAbsolute = false) :
    (base.join path).text.toList = slashed base.text.toList ++ path.text.toList := by
  unfold join slashed
  rw [relative]
  by_cases slash : base.text.toList.getLast? = .some '/'
  · simp [slash]
  · simp [some, slash]

theorem isAbsolute_join (some : base.text ≠ "") (relative : path.isAbsolute = false) :
    (base.join path).isAbsolute = base.isAbsolute := by
  unfold isAbsolute
  rw [toList_join some relative]
  cases whole : base.text.toList with
  | nil => exact absurd whole (toList_ne_nil some)
  | cons c rest =>
    unfold slashed
    split <;> rfl

theorem join_ne_empty (some : base.text ≠ "") (relative : path.isAbsolute = false) :
    (base.join path).text ≠ "" := by
  intro empty
  have whole := toList_join some relative
  obtain ⟨lead, slash, _⟩ := slashed_eq base.text.toList
  rw [empty, slash] at whole
  simp at whole

theorem join_join {folder : Path} (some : folder.text ≠ "") (relative : path.isAbsolute = false) :
    base.join (folder.join path) = (base.join folder).join path := by
  by_cases empty : base.text = ""
  · rw [join_of_empty empty, join_of_empty empty]
  · cases start : folder.isAbsolute with
    | true =>
      have still := (isAbsolute_join some relative).trans start
      rw [join_of_isAbsolute still, join_of_isAbsolute start]
    | false =>
      have still := (isAbsolute_join some relative).trans start
      apply eq_of_toList
      rw [toList_join empty still, toList_join some relative,
        toList_join (join_ne_empty empty start) relative, toList_join empty start,
        slashed_append _ (toList_ne_nil some), append_assoc]

def appendNames (path : Path) (names : List String) : Path :=
  names.foldl (fun path name => path.join ⟨name⟩) path

theorem appendNames_cons (path : Path) (name : String) (names : List String) :
    path.appendNames (name :: names) = (path.join ⟨name⟩).appendNames names := rfl

end Path

namespace Tree

private theorem segments_ne_nil (path : Path) : segments path ≠ [] := by
  unfold segments
  simp [Text.splitOn_ne_nil]

theorem relative_of_whole {name : String} (whole : '/' ∉ name.toList) : Path.isAbsolute ⟨name⟩ = false := by
  unfold Path.isAbsolute
  cases chars : name.toList with
  | nil => rfl
  | cons c rest =>
    have differs : c ≠ '/' := fun same => whole (by simp [chars, same])
    simpa using differs

theorem segments_of_whole {name : String} (whole : '/' ∉ name.toList) : segments ⟨name⟩ = [name] := by
  unfold segments
  rw [Text.splitOn_of_not_mem whole]
  simp

theorem segments_join {lead : Text} (some : base.text ≠ "") (relative : path.isAbsolute = false)
    (slash : Path.slashed base.text.toList = lead ++ ['/']) :
    segments (base.join path) = (Text.splitOn '/' lead).map String.ofList ++ segments path := by
  unfold segments
  rw [Path.toList_join some relative, slash, append_assoc, singleton_append,
    Text.splitOn_append_cons, map_append]

theorem join_appendNames {folder : Path} (some : folder.text ≠ "")
    (proper : ∀ name ∈ names, Proper name) (base : Path) :
    base.join (folder.appendNames names) = (base.join folder).appendNames names := by
  induction names generalizing folder with
  | nil => rfl
  | cons name names ih =>
    obtain ⟨first, others⟩ := forall_mem_cons.mp proper
    have relative := relative_of_whole first.whole
    rw [Path.appendNames_cons, Path.appendNames_cons, ih (Path.join_ne_empty some relative) others,
      Path.join_join some relative]

/-- A tree whose entries have names that a folder can hold, none of them a link. -/
structure Linkless (tree : Tree) : Prop where
  proper : ∀ item ∈ tree.entries, ∀ part ∈ item.1, Proper part
  noLink : ∀ item ∈ tree.entries, ∀ target, item.2 ≠ .link target

variable {tree : Tree}

theorem Linkless.entry?_ne_link (linkless : tree.Linkless) (place : Location) (target : Path) :
    tree.entry? place ≠ some (.link target) := by
  intro found
  unfold entry? at found
  split at found
  · cases found
  · exact linkless.noLink _ (mem_of_lookup found) target rfl

def goOne (tree : Tree) (place : Location) (part : String) : Except IoFault Location :=
  if tree.entry? place ≠ some .folder then .error .notFolder
  else if part = "" ∨ part = "." then .ok place
  else if part = ".." then .ok place.dropLast
  else if maxName < part.utf8ByteSize then .error .nameTooLong
  else if (tree.entry? (place ++ [part])).isNone then .error .notFound
  else .ok (place ++ [part])

def go (tree : Tree) (place : Location) (parts : List String) : Except IoFault Location :=
  parts.foldlM tree.goOne place

private theorem go_cons (tree : Tree) (place : Location) (part : String) (rest : List String) :
    tree.go place (part :: rest) = tree.goOne place part >>= fun next => tree.go next rest :=
  foldlM_cons

private theorem go_append (tree : Tree) (place : Location) (left right : List String) :
    tree.go place (left ++ right) = tree.go place left >>= fun middle => tree.go middle right :=
  foldlM_append

theorem Linkless.goAlong_eq (linkless : tree.Linkless)
    (follow : Location → Path → List String → Except IoFault Location) (place : Location)
    (parts : List String) : tree.goAlong follow place parts = tree.go place parts := by
  induction parts generalizing place with
  | nil => rfl
  | cons part rest ih =>
    rw [go_cons, goAlong, goOne]
    split
    · rename_i folder
      have open_ : ¬ tree.entry? place ≠ some .folder := fun other => other folder
      rw [if_neg open_]
      split
      · exact ih place
      split
      · exact ih place.dropLast
      split
      · rfl
      split
      · rename_i missing
        rw [missing]
        rfl
      · rename_i target found
        exact absurd found (linkless.entry?_ne_link _ target)
      · rename_i found
        rw [found]
        exact ih (place ++ [part])
    · rename_i other
      rw [if_pos other]
      rfl

theorem Linkless.walk_eq (linkless : tree.Linkless) (links : Nat) (place : Location)
    (parts : List String) : tree.walk links place parts = tree.go place parts := by
  cases links with
  | zero => exact linkless.goAlong_eq _ place parts
  | succ links => exact linkless.goAlong_eq _ place parts

private theorem go_empty_cons (place : Location) {parts : List String} (some : parts ≠ []) :
    tree.go place ("" :: parts) = tree.go place parts := by
  cases parts with
  | nil => exact absurd rfl some
  | cons part rest =>
    rw [go_cons]
    by_cases folder : tree.entry? place = .some .folder
    · have stay : tree.goOne place "" = .ok place := by
        simp [goOne, folder]
      rw [stay]
      rfl
    · have refused (part : String) : tree.goOne place part = .error .notFolder := by
        simp [goOne, folder]
      rw [go_cons, refused, refused]
      rfl

theorem Linkless.locate_join (linkless : tree.Linkless) (some : base.text ≠ "")
    (relative : path.isAbsolute = false) :
    tree.locate (base.join path) =
      tree.locate base >>= fun place => tree.go place (segments path) := by
  obtain ⟨lead, slash, own⟩ := Path.slashed_eq base.text.toList
  have joined := segments_join some relative slash
  have start : tree.startOf (base.join path) = tree.startOf base := by
    unfold startOf
    rw [Path.isAbsolute_join some relative]
  have nonempty : (base.join path).text.isEmpty ≠ true :=
    fun empty => Path.join_ne_empty some relative (String.isEmpty_iff.mp empty)
  unfold locate
  rw [if_neg nonempty, if_neg (fun empty => some (String.isEmpty_iff.mp empty)), start, joined,
    ← append_assoc, linkless.walk_eq, linkless.walk_eq, go_append]
  rcases own with same | same
  · have parts : segments base = (Text.splitOn '/' lead).map String.ofList := by
      rw [segments, same]
    rw [parts]
  · have parts : segments base = (Text.splitOn '/' lead).map String.ofList ++ [""] := by
      rw [segments, same, Text.splitOn_append_cons, map_append]
      rfl
    rw [parts, ← append_assoc, go_append _ _ _ [""], bind_assoc]
    refine congrArg _ (funext fun place => ?_)
    rw [← go_append, singleton_append, go_empty_cons place (segments_ne_nil path)]

private theorem go_names (proper : ∀ name ∈ names, Proper name) {place reached : Location}
    (went : tree.go place names = .ok reached) : reached = place ++ names := by
  induction names generalizing place with
  | nil =>
    cases went
    rw [append_nil]
  | cons name names ih =>
    obtain ⟨first, others⟩ := forall_mem_cons.mp proper
    rw [go_cons] at went
    obtain ⟨next, here, onward⟩ := bind_eq_ok.mp went
    unfold goOne at here
    split at here
    · cases here
    rw [if_neg first.full, if_neg first.down, if_neg first.short] at here
    split at here
    · cases here
    · cases here
      rw [ih others onward, append_assoc, singleton_append]

theorem Linkless.locate_appendNames (linkless : tree.Linkless) (some : base.text ≠ "")
    (proper : ∀ name ∈ names, Proper name) :
    tree.locate (base.appendNames names) =
      tree.locate base >>= fun place => tree.go place names := by
  induction names generalizing base with
  | nil =>
    change tree.locate base = tree.locate base >>= pure
    rw [bind_pure]
  | cons name names ih =>
    obtain ⟨first, others⟩ := forall_mem_cons.mp proper
    have relative := relative_of_whole first.whole
    rw [Path.appendNames_cons, ih (Path.join_ne_empty some relative) others, linkless.locate_join some relative,
      segments_of_whole first.whole, bind_assoc]
    refine congrArg _ (funext fun place => ?_)
    rw [← go_append, singleton_append]

theorem Linkless.locate_appendNames_eq_iff (linkless : tree.Linkless)
    (some : left.text ≠ "") (other : right.text ≠ "") (proper : ∀ name ∈ names, Proper name)
    {place : Location} (located : tree.locate (left.appendNames names) = .ok place) :
    tree.locate (right.appendNames names) = .ok place ↔ tree.locate right = tree.locate left := by
  rw [linkless.locate_appendNames some proper] at located
  obtain ⟨folder, found, went⟩ := bind_eq_ok.mp located
  rw [linkless.locate_appendNames other proper, found]
  constructor
  · intro again
    obtain ⟨second, foundAgain, wentAgain⟩ := bind_eq_ok.mp again
    have same : second ++ names = folder ++ names := by
      rw [← go_names proper went, go_names proper wentAgain]
    rw [foundAgain, append_cancel_right same]
  · intro same
    rw [same]
    exact went

end Tree

end PageScript
