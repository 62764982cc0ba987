import PageScript.Proofs.Lists
import PageScript.Proofs.Outcome
import PageScript.Proofs.Text
import PageScript.Tree

/-!
A path that can be read consists of names that the tree has, so a finite tree has finitely many of them
(`components_mem_spellings`).
-/

open List

namespace PageScript

variable {tree : Tree} {path : Path} {place : Location} {entry : Entry}

namespace Tree

theorem place?_eq_ok :
    tree.place? path = .ok place ↔ checkPath path = .ok () ∧ tree.locate path = .ok place := by
  rw [place?, bind_eq_ok]
  exact ⟨fun ⟨_, checked, located⟩ => ⟨checked, located⟩, fun ⟨checked, located⟩ => ⟨(), checked, located⟩⟩

theorem find?_eq_ok :
    tree.find? path = .ok entry ↔
      ∃ place, tree.place? path = .ok place ∧ tree.entry? place = some entry := by
  rw [find?, bind_eq_ok]
  refine exists_congr fun place => and_congr_right fun _ => ?_
  cases tree.entry? place with
  | none => exact ⟨fun failed => (nomatch failed), fun failed => (nomatch failed)⟩
  | some other =>
    constructor
    · intro found
      cases found
      rfl
    · intro found
      cases found
      rfl

theorem read_eq_ok {source : Text} :
    tree.read path = .ok source ↔ tree.find? path = .ok (.file source) := by
  rw [read, bind_eq_ok]
  constructor
  · rintro ⟨entry, found, answer⟩
    cases entry <;> cases answer
    exact found
  · intro found
    exact ⟨.file source, found, rfl⟩

theorem checkPath_eq_ok (checked : checkPath path = .ok ()) :
    path.text ≠ "" ∧ path.text.utf8ByteSize ≤ maxPath := by
  unfold checkPath at checked
  split at checked
  · cases checked
  split at checked
  · cases checked
  split at checked
  · cases checked
  rename_i more short
  exact ⟨fun empty => more (by rw [empty]; rfl), Nat.le_of_not_lt short⟩

def names (tree : Tree) : List String :=
  tree.entries.filterMap (·.1.getLast?)

def Known (tree : Tree) (part : String) : Prop :=
  part = "" ∨ part = "." ∨ part = ".." ∨ part ∈ tree.names

private theorem mem_names {part : String} (found : tree.entry? (place ++ [part]) = some entry) :
    part ∈ tree.names := by
  unfold entry? at found
  rw [if_neg (by simp)] at found
  exact mem_filterMap.mpr ⟨_, mem_of_lookup found, getLast?_concat⟩

/-- A part of a path that is neither idle nor the way up, and no longer than a name may be. -/
structure Named (part : String) : Prop where
  full : ¬ (part = "" ∨ part = ".")
  down : part ≠ ".."
  short : ¬ maxName < part.utf8ByteSize

variable {links : Nat} {part : String} {parts rest : List String} {result : Location} {target : Path}

/-- From a place the parts of a path lead to another, with at most a number of links on the way. -/
inductive Leads (tree : Tree) : Nat → Location → List String → Location → Prop
  | here {links : Nat} {place : Location} : Leads tree links place [] place
  | stay {links : Nat} {place result : Location} {part : String} {rest : List String}
      (folder : tree.entry? place = some .folder) (idle : part = "" ∨ part = ".")
      (onward : Leads tree links place rest result) : Leads tree links place (part :: rest) result
  | climb {links : Nat} {place result : Location} {rest : List String}
      (folder : tree.entry? place = some .folder)
      (onward : Leads tree links place.dropLast rest result) : Leads tree links place (".." :: rest) result
  | enter {links : Nat} {place result : Location} {part : String} {rest : List String} {entry : Entry}
      (folder : tree.entry? place = some .folder) (named : Named part)
      (found : tree.entry? (place ++ [part]) = some entry) (noLink : ∀ target, entry = .link target → False)
      (onward : Leads tree links (place ++ [part]) rest result) : Leads tree links place (part :: rest) result
  | follow {links : Nat} {place result : Location} {part : String} {rest : List String} {target : Path}
      (folder : tree.entry? place = some .folder) (named : Named part)
      (found : tree.entry? (place ++ [part]) = some (.link target)) (written : ¬ target.text.isEmpty = true)
      (onward : Leads tree links (if target.isAbsolute then [] else place) (segments target ++ rest) result) :
      Leads tree (links + 1) place (part :: rest) result

section

variable (folder : tree.entry? place = some .folder)

include folder

theorem walk_stay (idle : part = "" ∨ part = ".") :
    tree.walk links place (part :: rest) = tree.walk links place rest := by
  cases links <;> simp only [walk, goAlong, folder, if_pos idle]

theorem walk_climb : tree.walk links place (".." :: rest) = tree.walk links place.dropLast rest := by
  cases links <;> simp [walk, goAlong, folder]

variable (named : Named part)

include named

theorem walk_enter (found : tree.entry? (place ++ [part]) = some entry)
    (noLink : ∀ target, entry = .link target → False) :
    tree.walk links place (part :: rest) = tree.walk links (place ++ [part]) rest := by
  cases links <;> cases entry <;>
    simp_all [walk, goAlong, if_neg named.full, if_neg named.down, if_neg named.short]

theorem walk_follow (found : tree.entry? (place ++ [part]) = some (.link target))
    (written : ¬ target.text.isEmpty = true) :
    tree.walk (links + 1) place (part :: rest) =
      tree.walk links (if target.isAbsolute then [] else place) (segments target ++ rest) := by
  simp only [walk, goAlong, folder, if_neg named.full, if_neg named.down, if_neg named.short, found,
    if_neg written]

end

theorem Leads.walk (leads : tree.Leads links place parts result) :
    tree.walk links place parts = .ok result := by
  induction leads with
  | @here links => cases links <;> rfl
  | stay folder idle _ ih => rw [walk_stay folder idle, ih]
  | climb folder _ ih => rw [walk_climb folder, ih]
  | enter folder named found noLink _ ih => rw [walk_enter folder named found noLink, ih]
  | follow folder named found written _ ih => rw [walk_follow folder named found written, ih]

private theorem leads_of_goAlong {follow : Location → Path → List String → Except IoFault Location}
    (followed : ∀ {place part target rest}, tree.entry? place = some .folder → Named part →
      tree.entry? (place ++ [part]) = some (.link target) → follow place target rest = .ok result →
      tree.Leads links place (part :: rest) result)
    (reached : tree.goAlong follow place parts = .ok result) : tree.Leads links place parts result := by
  induction parts generalizing place with
  | nil =>
    cases reached
    exact .here
  | cons part rest ih =>
    unfold goAlong at reached
    split at reached
    · rename_i folder
      split at reached
      · rename_i idle
        exact .stay folder idle (ih reached)
      rename_i full
      split at reached
      · rename_i up
        rw [up]
        exact .climb folder (ih reached)
      rename_i down
      split at reached
      · cases reached
      rename_i short
      split at reached
      · cases reached
      · rename_i found
        exact followed folder ⟨full, down, short⟩ found reached
      · rename_i noLink found
        exact .enter folder ⟨full, down, short⟩ found noLink (ih reached)
    · cases reached

theorem walk_eq_ok : tree.walk links place parts = .ok result ↔ tree.Leads links place parts result := by
  refine ⟨fun reached => ?_, Leads.walk⟩
  induction links generalizing place parts result with
  | zero =>
    refine leads_of_goAlong ?_ reached
    intro place part target rest _ _ _ failed
    cases failed
  | succ links ih =>
    refine leads_of_goAlong ?_ reached
    intro place part target rest folder named found followed
    split at followed
    · cases followed
    · rename_i written
      exact .follow folder named found written (ih followed)

theorem Leads.known (leads : tree.Leads links place parts result) : ∀ part ∈ parts, tree.Known part := by
  induction leads with
  | here => nofun
  | stay _ idle _ ih => exact forall_mem_cons.mpr ⟨idle.elim .inl fun dot => .inr (.inl dot), ih⟩
  | climb _ _ ih => exact forall_mem_cons.mpr ⟨.inr (.inr (.inl rfl)), ih⟩
  | enter _ _ found _ _ ih => exact forall_mem_cons.mpr ⟨.inr (.inr (.inr (mem_names found))), ih⟩
  | follow _ _ found _ _ ih =>
    refine forall_mem_cons.mpr ⟨.inr (.inr (.inr (mem_names found))), fun part member => ?_⟩
    exact ih part (mem_append_right _ member)

def alphabet (tree : Tree) : List Component :=
  .root :: .current :: .parent :: tree.names.map .normal

/-- The components of all paths that could be read. -/
def spellings (tree : Tree) : List (List Component) :=
  wordsUpTo tree.alphabet (maxPath + 2)

theorem length_spellings_le (tree : Tree) :
    tree.spellings.length ≤ Nat.pow (tree.entries.length + 4) (maxPath + 2) := by
  have letters : tree.alphabet.length + 1 ≤ tree.entries.length + 4 := by
    have few : tree.names.length ≤ tree.entries.length := length_filterMap_le _ _
    simp only [alphabet, length_cons, length_map]
    omega
  exact Nat.le_trans (length_wordsUpTo_le _ _) (Nat.pow_le_pow_left letters _)

private theorem component_mem_alphabet {part : Text} {component : Component}
    (known : tree.Known (String.ofList part)) (stands : Path.component? part = some component) :
    component ∈ tree.alphabet := by
  unfold Path.component? at stands
  split at stands
  · cases stands
  rename_i full
  rw [not_or] at full
  split at stands
  · cases stands
    simp [alphabet]
  rename_i down
  cases stands
  have named : String.ofList part ∈ tree.names := by
    have apart (other : Text) (differs : part ≠ other) : String.ofList part ≠ String.ofList other :=
      fun same => differs (String.ofList_injective same)
    rcases known with empty | dot | dots | named
    · exact absurd empty (apart [] full.1)
    · exact absurd dot (apart ['.'] full.2)
    · exact absurd dots (apart ['.', '.'] down)
    · exact named
  simp only [alphabet, mem_cons]
  exact .inr (.inr (.inr (mem_map_of_mem named)))

theorem components_subset_alphabet {file : Path} (known : ∀ part ∈ segments file, tree.Known part) :
    ∀ component ∈ file.components, component ∈ tree.alphabet := by
  intro component member
  unfold Path.components at member
  rcases mem_append.mp member with lead | inner
  · have first : component = .root ∨ component = .current := by
      split at lead
      · exact .inl (mem_singleton.mp lead)
      split at lead
      · exact .inr (mem_singleton.mp lead)
      · cases lead
    rcases first with rfl | rfl <;> simp [alphabet]
  · obtain ⟨part, within, stands⟩ := mem_filterMap.mp inner
    exact component_mem_alphabet (known _ (mem_map_of_mem within)) stands

theorem length_components_le (file : Path) : file.components.length ≤ file.text.utf8ByteSize + 2 := by
  have parts := Text.length_splitOn_le '/' file.text.toList
  have bytes := Text.length_le_byteLength file.text.toList
  rw [Text.byteLength_toList] at bytes
  have inner := length_filterMap_le Path.component? (Text.splitOn '/' file.text.toList)
  have lead : (if file.isAbsolute then [Component.root]
      else if Path.startsCurrent file.text.toList then [Component.current] else []).length ≤ 1 := by
    split
    · exact Nat.le_refl 1
    split
    · exact Nat.le_refl 1
    · exact Nat.zero_le 1
  unfold Path.components
  rw [length_append]
  omega

theorem components_mem_spellings {file : Path} {source : Text} (readable : tree.read file = .ok source) :
    file.components ∈ tree.spellings := by
  obtain ⟨place, placed, _⟩ := find?_eq_ok.mp (read_eq_ok.mp readable)
  obtain ⟨checked, located⟩ := place?_eq_ok.mp placed
  obtain ⟨_, short⟩ := checkPath_eq_ok checked
  have known : ∀ part ∈ segments file, tree.Known part := by
    unfold locate at located
    split at located
    · cases located
    · intro part member
      exact (walk_eq_ok.mp located).known part (mem_append_right _ member)
  have few : file.components.length ≤ maxPath + 2 :=
    Nat.le_trans (length_components_le file) (Nat.add_le_add_right short 2)
  exact mem_wordsUpTo (components_subset_alphabet known) few

end Tree

end PageScript
