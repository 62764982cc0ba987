import PageScript.Proofs.Tree.Walks

/-! Writing to a tree leaves the ways through it as they were (`write_read_new`, `write_read_file`). -/

open List

namespace PageScript

variable {start folder : Location} {parts : List String} {name : String} {path : Path}

namespace Tree

variable {tree : Tree} {place : Location}

def Vacant (tree : Tree) (place : Location) : Prop :=
  ∀ entry, tree.entry? place = some entry → isFileEntry entry = true

theorem Vacant.ne_folder (vacant : tree.Vacant place) : tree.entry? place ≠ some .folder := by
  intro found
  cases vacant _ found

theorem Vacant.ne_link (vacant : tree.Vacant place) (target : Path) :
    tree.entry? place ≠ some (.link target) := by
  intro found
  cases vacant _ found

theorem entry?_put_self (tree : Tree) {place : Location} (inside : place ≠ []) (entry : Entry) :
    entry? (tree.put place entry) place = some entry := by
  unfold entry? put
  rw [if_neg (by simpa using inside)]
  exact lookup_cons_self

theorem entry?_put_of_ne {other : Location} (apart : other ≠ place) (entry : Entry) :
    entry? (tree.put place entry) other = tree.entry? other := by
  unfold entry? put
  split
  · rfl
  · have first : (other == place) = false := beq_false_of_ne apart
    rw [lookup_cons, first]
    dsimp only
    induction tree.entries with
    | nil => rfl
    | cons item rest ih =>
      obtain ⟨held, value⟩ := item
      by_cases gone : held = place
      · have absent : (other == held) = false := beq_false_of_ne (gone ▸ apart)
        rw [filter_cons_of_neg (by simp [gone]), lookup_cons, absent]
        exact ih
      · rw [filter_cons_of_pos (by simp [gone]), lookup_cons, lookup_cons, ih]

variable {links : Nat} {result : Location}

/-- What was there is there, except that a file may be another one. -/
def Extends (tree after : Tree) : Prop :=
  ∀ place entry, tree.entry? place = some entry → ∃ other, after.entry? place = some other ∧
    (entry = other ∨ isFileEntry entry = true ∧ isFileEntry other = true)

theorem Extends.entry? {after : Tree} (grows : tree.Extends after) {entry : Entry}
    (found : tree.entry? place = some entry) (plain : isFileEntry entry = false) :
    after.entry? place = some entry := by
  obtain ⟨other, there, rfl | ⟨file, _⟩⟩ := grows place entry found
  · exact there
  · rw [plain] at file
    cases file

theorem Leads.mono {after : Tree} (leads : tree.Leads links start parts result)
    (grows : tree.Extends after) : after.Leads links start parts result := by
  induction leads with
  | here => exact .here
  | stay folder idle _ ih => exact .stay (grows.entry? folder rfl) idle ih
  | climb folder _ ih => exact .climb (grows.entry? folder rfl) ih
  | enter folder named found noLink _ ih =>
    obtain ⟨other, there, like⟩ := grows _ _ found
    refine .enter (grows.entry? folder rfl) named there ?_ ih
    rintro target rfl
    rcases like with same | ⟨_, file⟩
    · exact noLink target same
    · cases file
  | follow folder named found written _ ih =>
    exact .follow (grows.entry? folder rfl) named (grows.entry? found rfl) written ih

theorem Vacant.extends_put (vacant : tree.Vacant place) (inside : place ≠ []) (text : Text) :
    tree.Extends (tree.put place (.file text)) := by
  intro other entry found
  by_cases here : other = place
  · subst here
    exact ⟨_, tree.entry?_put_self inside _, .inr ⟨vacant entry found, rfl⟩⟩
  · exact ⟨entry, (entry?_put_of_ne here _).trans found, .inl rfl⟩

theorem Leads.snoc (leads : tree.Leads links start parts folder) {outcome : Except IoFault Location}
    (here : ∀ links, tree.walk links folder [name] = outcome) :
    tree.walk links start (parts ++ [name]) = outcome := by
  induction leads with
  | here => exact here _
  | stay folder idle _ ih => exact (walk_stay folder idle).trans (ih here)
  | climb folder _ ih => exact (walk_climb folder).trans (ih here)
  | enter folder named found noLink _ ih => exact (walk_enter folder named found noLink).trans (ih here)
  | follow folder named found written _ ih =>
    rw [cons_append, walk_follow folder named found written, ← append_assoc]
    exact ih here

theorem segments_join_name (whole : '/' ∉ name.toList) (folder : Path) :
    ∃ outer, segments (folder.join ⟨name⟩) = outer ++ [name] := by
  by_cases empty : folder.text = ""
  · rw [Path.join_of_empty empty]
    exact ⟨[], segments_of_whole whole⟩
  · obtain ⟨lead, slash, _⟩ := Path.slashed_eq folder.text.toList
    rw [segments_join empty (relative_of_whole whole) slash, segments_of_whole whole]
    exact ⟨_, rfl⟩

theorem newPlace?_eq_ok {outer : List String} (split : segments path = outer ++ [name]) (more : name ≠ "")
    (placed : tree.newPlace? path = .ok place) :
    checkPath path = .ok () ∧ ∃ folder, tree.walk maxLinks [] (tree.startOf path ++ outer) = .ok folder ∧
      tree.entry? folder = some .folder ∧ place = folder ++ [name] ∧ Proper name := by
  obtain ⟨_, checked, placed⟩ := bind_eq_ok.mp placed
  refine ⟨checked, ?_⟩
  have named : ((segments path).reverse.dropWhile (· == "")) = name :: outer.reverse := by
    rw [split, reverse_append]
    exact dropWhile_cons_of_neg (by simpa using more)
  dsimp only at placed
  rw [named] at placed
  obtain ⟨folder, walked, placed⟩ := bind_eq_ok.mp placed
  rw [reverse_reverse] at walked
  refine ⟨folder, walked, ?_⟩
  split at placed
  · rename_i found
    split at placed
    · cases placed
    rename_i plain
    split at placed
    · cases placed
    rename_i short
    cases placed
    rw [not_or] at plain
    refine ⟨found, rfl, not_or.mpr ⟨more, plain.1⟩, plain.2, short, ?_⟩
    exact whole_segments path name (split ▸ mem_append_right _ mem_cons_self)
  · cases placed

private theorem walk_name (stands : tree.entry? folder = some .folder) (proper : Proper name)
    (vacant : tree.Vacant (folder ++ [name])) (links : Nat) :
    tree.walk links folder [name] =
      if (tree.entry? (folder ++ [name])).isSome then .ok (folder ++ [name]) else .error .notFound := by
  cases found : tree.entry? (folder ++ [name]) with
  | none =>
    cases links <;>
      simp [walk, goAlong, stands, if_neg proper.full, if_neg proper.down, if_neg proper.short, found]
  | some entry =>
    refine (Leads.enter stands proper.named found ?_ .here).walk
    rintro target rfl
    exact vacant.ne_link target found

theorem write_read_new {outer : List String} (split : segments path = outer ++ [name]) (more : name ≠ "")
    (placed : tree.newPlace? path = .ok place) (free : tree.entry? place = none) (text : Text) :
    ∃ saved, tree.write path text = .ok saved ∧ saved.read path = .ok text := by
  obtain ⟨checked, folder, walked, stands, rfl, proper⟩ := newPlace?_eq_ok split more placed
  have located : ∀ {tree : Tree}, tree.walk maxLinks [] (tree.startOf path ++ outer) = .ok folder →
      tree.entry? folder = some .folder → tree.Vacant (folder ++ [name]) →
      tree.place? path = if (tree.entry? (folder ++ [name])).isSome then .ok (folder ++ [name])
        else .error .notFound := by
    intro tree walked stands vacant
    have reached := (walk_eq_ok.mp walked).snoc (walk_name stands proper vacant)
    rw [append_assoc, ← split] at reached
    have some : ¬ path.text.isEmpty = true := by
      simpa using (checkPath_eq_ok checked).1
    rw [place?, checked]
    change tree.locate path = _
    rw [locate, if_neg some, reached]
  have vacant : tree.Vacant (folder ++ [name]) := by
    intro entry found
    rw [free] at found
    cases found
  have missing := located walked stands vacant
  rw [free] at missing
  refine ⟨tree.put (folder ++ [name]) (.file text), ?_, ?_⟩
  · have last : path.text.toList.getLast? ≠ some '/' := by
      intro slash
      obtain ⟨lead, whole⟩ := getLast?_eq_some_iff.mp slash
      rw [segments, whole, Text.splitOn_append_cons, map_append] at split
      exact more (List.cons.inj (append_inj_right' split rfl)).1.symm
    rw [write, missing]
    dsimp only [Option.isSome_none]
    rw [if_neg Bool.false_ne_true, placed]
    exact if_neg last
  · have inside : folder ++ [name] ≠ [] := append_ne_nil_of_right_ne_nil _ (cons_ne_nil _ _)
    have held := tree.entry?_put_self inside (.file text)
    have still : entry? (tree.put (folder ++ [name]) (.file text)) folder = some .folder := by
      have apart : folder ≠ folder ++ [name] := by simp
      rw [entry?_put_of_ne apart, stands]
    have room : (tree.put (folder ++ [name]) (.file text)).Vacant (folder ++ [name]) := by
      intro entry found
      rw [held] at found
      cases found
      rfl
    have grows := vacant.extends_put inside text
    have reached := located ((walk_eq_ok.mp walked).mono grows).walk still room
    rw [held] at reached
    exact read_eq_ok.mpr (find?_eq_ok.mpr ⟨_, reached, held⟩)

private theorem write_read_file (file : tree.isFile path = true) (text : Text) :
    ∃ saved, tree.write path text = .ok saved ∧ saved.read path = .ok text := by
  obtain ⟨entry, found, plain⟩ := find?_of_isFile file
  obtain ⟨place, placed, stands⟩ := find?_eq_ok.mp found
  obtain ⟨checked, located⟩ := place?_eq_ok.mp placed
  have vacant : tree.Vacant place := by
    intro other again
    rw [stands] at again
    cases again
    exact plain
  have inside : place ≠ [] := by
    rintro rfl
    exact vacant.ne_folder rfl
  have some : ¬ path.text.isEmpty = true := by
    simpa using (checkPath_eq_ok checked).1
  refine ⟨tree.put place (.file text), ?_, ?_⟩
  · rw [write, placed]
    dsimp only
    rw [stands]
    cases entry with
    | folder => cases plain
    | _ => rfl
  · rw [locate, if_neg some] at located
    have again : (tree.put place (.file text)).locate path = .ok place := by
      rw [locate, if_neg some]
      exact ((walk_eq_ok.mp located).mono (vacant.extends_put inside text)).walk
    exact read_eq_ok.mpr (find?_eq_ok.mpr
      ⟨place, place?_eq_ok.mpr ⟨checked, again⟩, tree.entry?_put_self inside _⟩)

/-- A folder is there or can be made, and in it a file with a name is there or can be made. -/
def Writable (tree : Tree) (folder : Path) (name : String) : Prop :=
  ∃ made, tree.makeFolders folder = .ok made ∧
    (made.isFile (folder.join ⟨name⟩) = true ∨
      ∃ place, made.newPlace? (folder.join ⟨name⟩) = .ok place ∧ made.entry? place = none)

theorem Writable.stores {folder : Path} (writable : tree.Writable folder name) (more : name ≠ "")
    (whole : '/' ∉ name.toList) (text : Text) :
    ∃ made saved, tree.makeFolders folder = .ok made ∧
      made.write (folder.join ⟨name⟩) text = .ok saved ∧ saved.read (folder.join ⟨name⟩) = .ok text := by
  obtain ⟨made, folders, file | ⟨place, placed, free⟩⟩ := writable
  · obtain ⟨saved, wrote, read⟩ := write_read_file file text
    exact ⟨made, saved, folders, wrote, read⟩
  obtain ⟨outer, split⟩ := segments_join_name whole folder
  obtain ⟨saved, wrote, read⟩ := write_read_new split more placed free text
  exact ⟨made, saved, folders, wrote, read⟩

end Tree

end PageScript
