import PageScript.Proofs.Tree.Writing

/-! Links that are made one after another (`run_links`). -/

open List

namespace PageScript

namespace Tree

variable {tree middle after : Tree} {place start result : Location} {path : Path}

private theorem entry?_put (free : tree.entry? place = none) (entry : Entry) (other : Location) :
    Tree.entry? (tree.put place entry) other = if other = place then some entry else tree.entry? other := by
  split
  · rename_i here
    have inside : place ≠ [] := by
      rintro rfl
      cases free
    rw [here, tree.entry?_put_self inside]
  · rename_i apart
    exact entry?_put_of_ne apart entry

/-- What stands in one tree stands in the other. -/
structure Keeps (tree after : Tree) : Prop where
  home : after.home = tree.home
  entry : ∀ {place entry}, tree.entry? place = some entry → after.entry? place = some entry

theorem Keeps.refl (tree : Tree) : tree.Keeps tree :=
  ⟨rfl, id⟩

theorem Keeps.trans (first : tree.Keeps middle) (second : middle.Keeps after) : tree.Keeps after :=
  ⟨second.home.trans first.home, fun found => second.entry (first.entry found)⟩

theorem keeps_put (free : tree.entry? place = none) (entry : Entry) : tree.Keeps (tree.put place entry) := by
  refine ⟨rfl, fun {other _} found => ?_⟩
  rw [entry?_put free, if_neg, found]
  rintro rfl
  rw [free] at found
  cases found

section

variable (keeps : tree.Keeps after)

include keeps

theorem Keeps.walk {links : Nat} {parts : List String} (reached : tree.walk links start parts = .ok result) :
    after.walk links start parts = .ok result :=
  ((walk_eq_ok.mp reached).mono fun _ entry found => ⟨entry, keeps.entry found, .inl rfl⟩).walk

theorem Keeps.locate (located : tree.locate path = .ok place) : after.locate path = .ok place := by
  unfold Tree.locate startOf at located ⊢
  rw [keeps.home]
  split at located
  · cases located
  · rename_i written
    rw [if_neg written]
    exact keeps.walk located

theorem Keeps.stands (stands : tree.Stands place) : after.Stands place := by
  induction stands with
  | root => exact .root
  | step _ folder proper found noLink ih => exact .step ih (keeps.entry folder) proper (keeps.entry found) noLink

theorem Keeps.newPlace? (placed : tree.newPlace? path = .ok place) : after.newPlace? path = .ok place := by
  obtain ⟨_, checked, placed⟩ := bind_eq_ok.mp placed
  refine bind_eq_ok.mpr ⟨_, checked, ?_⟩
  dsimp only at placed ⊢
  split at placed
  · cases placed
  · obtain ⟨folder, walked, placed⟩ := bind_eq_ok.mp placed
    refine bind_eq_ok.mpr ⟨folder, ?_, ?_⟩
    · rw [startOf, keeps.home]
      exact keeps.walk walked
    · split at placed
      · rename_i found
        rw [keeps.entry found]
        exact placed
      · cases placed

end

private theorem makeFolders_keeps (made : tree.makeFolders path = .ok after) : tree.Keeps after ∧
    ∀ place target, after.entry? place = some (.link target) → tree.entry? place = some (.link target) := by
  refine makeMissing_induct (fun after => tree.Keeps after ∧ ∀ place target,
    after.entry? place = some (.link target) → tree.entry? place = some (.link target))
    ⟨.refl tree, fun _ _ found => found⟩ ?_ made
  rintro middle _ path _ ⟨kept, old⟩ made
  obtain ⟨place, _, free, rfl⟩ := makeFolder_eq_ok made
  refine ⟨kept.trans (keeps_put free _), fun other target found => ?_⟩
  rw [entry?_put free] at found
  split at found
  · cases found
  · exact old other target found

private theorem locate_link {folder : Location} {name : String} (outer : tree.Stands folder)
    (stands : tree.Stands place) (within : tree.entry? folder = some .folder) (proper : Proper name)
    (found : tree.entry? (folder ++ [name]) = some (.link (pathOf place))) :
    tree.locate (pathOf (folder ++ [name])) = .ok place := by
  have onward : tree.Leads 39 [] (segments (pathOf place) ++ []) place := by
    rw [append_nil, ← walk_eq_ok, walk_pathOf fun part member => (stands.proper part member).whole]
    exact (append_nil place ▸ stands.leads .here).walk
  have whole : ∀ part ∈ folder ++ [name], '/' ∉ part.toList :=
    forall_mem_append.mpr ⟨fun part member => (outer.proper part member).whole,
      forall_mem_singleton.mpr proper.whole⟩
  have written : ¬ (pathOf place).text.isEmpty = true := by simpa using pathOf_ne_empty place
  rw [locate_pathOf whole]
  refine (outer.leads (.follow within proper.named found written ?_)).walk
  rwa [if_pos (isAbsolute_pathOf place)]

private theorem isRemote_pathOf (proper : ∀ part ∈ place, Proper part) (some : place ≠ []) :
    Directive.isRemote (pathOf place).text.toList = false := by
  have parts := segments_pathOf fun part member => (proper part member).whole
  rw [if_neg some] at parts
  rw [Bool.eq_false_iff]
  intro remote
  obtain ⟨start, member, found⟩ := any_eq_true.mp remote
  obtain ⟨rest, found⟩ := Option.isSome_iff_exists.mp found
  have begins := Text.after?_eq_some.mp found
  rw [text_pathOf] at begins
  simp only [mem_cons, not_mem_nil, or_false] at member
  rcases member with rfl | rfl | rfl
  · cases begins
  · cases begins
  · rw [segments, text_pathOf, begins] at parts
    change (Text.splitOn '/' ([] ++ '/' :: ([] ++ '/' :: rest))).map String.ofList = _ at parts
    rw [Text.splitOn_append not_mem_nil, Text.splitOn_append not_mem_nil] at parts
    have first := (List.cons.inj parts).2
    exact (proper "" (first ▸ mem_cons_self)).full (.inl rfl)

end Tree

open PageScript.Tree

/-- A call that gave the address of a file. -/
structure LinkCall where
  before : Tree
  path : String
  url : String
  after : Tree

namespace LinkCall

def source (call : LinkCall) : Path :=
  call.before.canonical ⟨call.path⟩

def Makes (call : LinkCall) (place : Location) (target : Path) : Prop :=
  call.before.entry? place = none ∧ call.after.entry? place = some (.link target)

end LinkCall

namespace Linker

theorem digest_shape (text : Text) : (Digest.ofText text).length = 64 ∧ '/' ∉ Digest.ofText text := by
  have digits (count value : Nat) :
      (Digest.hexDigits count value).length = count ∧ '/' ∉ Digest.hexDigits count value := by
    induction count generalizing value with
    | zero => exact ⟨rfl, not_mem_nil⟩
    | succ count ih =>
      have digit : ∀ digit < 16, '/' ≠ Nat.digitChar digit := by decide
      obtain ⟨length, whole⟩ := ih (value / 16)
      simp [Digest.hexDigits, length, whole, digit _ (Nat.mod_lt value (by decide))]
  simp [Digest.ofText, digits]

private theorem take_linkName (source : Path) :
    (linkName source).toList.take 32 = (Digest.ofText source.text.toList).take 32 := by
  have long : ((Digest.ofText source.text.toList).take 32).length = 32 := by
    rw [length_take, (digest_shape _).1]
    rfl
  unfold linkName
  dsimp only
  split
  · rw [String.toList_append, String.toList_append, String.toList_ofList, append_assoc, take_left' long]
  · rw [String.toList_ofList, take_take]
    rfl

private theorem linkName_ne_empty (source : Path) : linkName source ≠ "" := by
  intro empty
  have long := congrArg length (take_linkName source)
  rw [empty, length_take, length_take, (digest_shape _).1] at long
  cases long

theorem not_mem_extension {source : Path} {extension : String} (found : source.extension? = some extension) :
    '/' ∉ extension.toList := by
  obtain ⟨file, named, found⟩ := Option.bind_eq_some_iff.mp found
  have whole : '/' ∉ file.toList := by
    unfold Path.fileName? at named
    split at named
    · cases named
    · cases named
    · cases named
      intro slash
      rw [String.toList_ofList, mem_reverse] at slash
      simpa using all_eq_true.mp all_takeWhile _ slash
  unfold Path.extensionOf? at found
  dsimp only at found
  split at found
  · cases found
  · cases found
  · cases found
    intro slash
    rw [String.toList_ofList, mem_reverse] at slash
    exact whole (mem_reverse.mp ((takeWhile_sublist _).mem slash))

private theorem whole_linkName (source : Path) : '/' ∉ (linkName source).toList := by
  have digest : '/' ∉ (Digest.ofText source.text.toList).take 32 :=
    fun slash => (digest_shape _).2 (mem_of_mem_take slash)
  unfold linkName
  dsimp only
  split
  · rename_i extension found
    simp [digest, not_mem_extension found]
  · simpa using digest

variable {linker : Linker} {first last : Tree} {root place : Location} {calls : List LinkCall}
  {call : LinkCall} {target : Path}

private theorem linkName_of_address {left right : Path}
    (same : linker.address (linker.linksFolder ++ "/" ++ linkName left) =
      linker.address (linker.linksFolder ++ "/" ++ linkName right)) : linkName left = linkName right := by
  have trimmed (source : Path) : trimStart (linker.linksFolder ++ "/" ++ linkName source) =
      trimStart (linker.linksFolder ++ "/") ++ linkName source := by
    have name : (linkName source).toList.dropWhile (· == '/') = (linkName source).toList := by
      cases chars : (linkName source).toList with
      | nil => rfl
      | cons c rest =>
        have differs : c ≠ '/' := fun same => whole_linkName source (by simp [chars, same])
        exact dropWhile_cons_of_neg (by simpa using differs)
    apply String.toList_injective
    rw [trimStart, trimStart, String.toList_ofList, String.toList_append, String.toList_append,
      String.toList_ofList, dropWhile_append, name]
    split <;> simp_all
  unfold address at same
  rw [trimmed, trimmed] at same
  simpa [String.append_assoc] using same

/-- The address of a source, which is below the internal root or has a link. -/
def urlOf (linker : Linker) (root source : Path) : String :=
  match root.after? source with
  | some inner => linker.address (Path.ofComponents inner).text
  | none => linker.address (linker.linksFolder ++ "/" ++ linkName source)

def linkPath (linker : Linker) (root source : Path) : Path :=
  (root.join ⟨linker.linksFolder⟩).join ⟨linkName source⟩

/-- What a call does, where the internal root is known by a path. -/
structure Answers (linker : Linker) (root : Path) (call : LinkCall) : Prop where
  kept : call.before.Keeps call.after
  url : call.url = linker.urlOf root call.source
  made : ∀ {place target}, call.Makes place target → target = call.source ∧
    root.after? call.source = none ∧ call.after.newPlace? (linker.linkPath root call.source) = .ok place

private theorem answers_of_link (near : Directive.isRemote call.path.toList = false)
    (linked : linker.link call.before call.path = (.ok call.url, call.after)) :
    linker.Answers (call.before.canonical linker.internalRoot) call := by
  obtain ⟨tree, path, url, after⟩ := call
  have idle {place : Location} {target : Path} {claim : Prop} :
      LinkCall.Makes ⟨tree, path, url, tree⟩ place target → claim := by
    rintro ⟨free, found⟩
    cases free.symm.trans found
  dsimp only at near linked ⊢
  unfold link at linked
  rw [if_neg (by simp [near])] at linked
  dsimp only at linked
  split at linked
  · rename_i under
    cases linked
    exact ⟨.refl tree, by rw [urlOf, LinkCall.source, under], idle⟩
  rename_i outside
  have url : linker.urlOf (tree.canonical linker.internalRoot) (tree.canonical ⟨path⟩) =
      linker.address (linker.linksFolder ++ "/" ++ linkName (tree.canonical ⟨path⟩)) := by
    rw [urlOf, outside]
  split at linked
  · cases linked
    exact ⟨.refl tree, url.symm, idle⟩
  split at linked
  · cases linked
  rename_i middle folders
  split at linked
  · cases linked
  rename_i made
  cases linked
  obtain ⟨place, placed, free, rfl⟩ := makeLink_eq_ok made
  obtain ⟨kept, old⟩ := makeFolders_keeps folders
  have grown := keeps_put free (.link (tree.canonical ⟨path⟩))
  refine ⟨kept.trans grown, url.symm, ?_⟩
  rintro other target ⟨none, found⟩
  dsimp only at none found
  rw [entry?_put free] at found
  split at found
  · rename_i here
    cases found
    subst here
    exact ⟨rfl, outside, grown.newPlace? placed⟩
  · cases none.symm.trans (old _ _ found)

/-- The place of a link that was made: a folder that stands, and the name that its source gives. -/
theorem Answers.named {root : Path} (answers : linker.Answers root call) (made : call.Makes place target) :
    ∃ folder, place = folder ++ [linkName target] ∧ call.after.Stands folder ∧
      call.after.entry? folder = some .folder ∧ Proper (linkName target) := by
  obtain ⟨rfl, _, placed⟩ := answers.made made
  obtain ⟨outer, split⟩ := segments_join_name (whole_linkName call.source) (root.join ⟨linker.linksFolder⟩)
  obtain ⟨_, folder, walked, within, same, proper⟩ := newPlace?_eq_ok split (linkName_ne_empty _) placed
  refine ⟨folder, same, (walk_eq_ok.mp walked).stands .root fun part member => ?_, within, proper⟩
  refine whole_startOf call.after (linker.linkPath root call.source) part ?_
  rw [linkPath, split, ← append_assoc]
  exact mem_append_left _ member

theorem Answers.relink (located : last.locate linker.internalRoot = .ok root)
    (answers : linker.Answers (pathOf root) call) (kept : call.after.Keeps last)
    (made : call.Makes place target) {there : Location} (stood : call.before.locate ⟨call.path⟩ = .ok there) :
    linker.link last (pathOf place).text = (.ok call.url, last) := by
  obtain ⟨folder, rfl, stands, within, proper⟩ := answers.named made
  obtain ⟨rfl, outside, placed⟩ := answers.made made
  have source : call.source = pathOf there := (canonical_pathOf stood).1
  have found := kept.entry made.2
  have outer := kept.stands stands
  have whole : ∀ part ∈ folder ++ [linkName call.source], Proper part :=
    forall_mem_append.mpr ⟨outer.proper, forall_mem_singleton.mpr proper⟩
  have reached : last.locate (pathOf (folder ++ [linkName call.source])) = .ok there := by
    refine locate_link outer (kept.stands (answers.kept.stands (locate_stands stood))) (kept.entry within) proper ?_
    rw [found, source]
  have taken : last.occupied (linker.linkPath (pathOf root) call.source) = true := by
    rw [occupied, kept.newPlace? placed]
    dsimp only
    rw [found]
    rfl
  unfold linkPath at taken
  unfold link
  rw [if_neg (by rw [isRemote_pathOf whole (by simp)]; exact Bool.false_ne_true)]
  dsimp only
  rw [(canonical_pathOf reached).1, (canonical_pathOf located).1, ← source, outside]
  dsimp only
  rw [if_pos taken, answers.url, urlOf, outside]

/-- Calls for files, one after another and the latest first. -/
inductive Run (linker : Linker) (first : Tree) : List LinkCall → Tree → Prop
  | start : Run linker first [] first
  | call {calls : List LinkCall} {call : LinkCall} (run : Run linker first calls call.before)
      (near : Directive.isRemote call.path.toList = false)
      (linked : linker.link call.before call.path = (.ok call.url, call.after)) :
      Run linker first (call :: calls) call.after

theorem Run.each (located : first.locate linker.internalRoot = .ok root) (run : Run linker first calls last) :
    first.Keeps last ∧
    (∀ call ∈ calls, linker.Answers (pathOf root) call ∧ call.after.Keeps last) ∧
    (calls.Pairwise fun later earlier => earlier.after.Keeps later.before) ∧
    ∀ place target, last.entry? place = some (.link target) →
      first.entry? place = some (.link target) ∨ ∃ call ∈ calls, call.Makes place target := by
  induction run with
  | start => exact ⟨.refl _, nofun, .nil, fun _ _ found => .inl found⟩
  | @call calls call _ near linked ih =>
    obtain ⟨kept, each, order, links⟩ := ih
    have answers := answers_of_link near linked
    rw [(canonical_pathOf (kept.locate located)).1] at answers
    refine ⟨kept.trans answers.kept, forall_mem_cons.mpr ⟨⟨answers, .refl _⟩, ?_⟩,
      pairwise_cons.mpr ⟨fun earlier member => (each earlier member).2, order⟩, fun place target found => ?_⟩
    · exact fun earlier member => ⟨(each earlier member).1, (each earlier member).2.trans answers.kept⟩
    · cases before : call.before.entry? place with
      | none => exact .inr ⟨call, mem_cons_self, before, found⟩
      | some entry =>
        cases (answers.kept.entry before).symm.trans found
        refine (links place target before).imp_right ?_
        rintro ⟨earlier, member, made⟩
        exact ⟨earlier, mem_cons_of_mem _ member, made⟩

/-- Calls for one source have one address, and those for different sources that are not below the internal
root have different ones. What was there stays, and the links that are new were made by the calls, each once:
named by its source and leading to it. The path of such a link has the address of its source, if that was
there. -/
theorem run_links (located : first.locate linker.internalRoot = .ok root) (run : Run linker first calls last)
    (injective : ∀ left ∈ calls, ∀ right ∈ calls,
      (Digest.ofText left.source.text.toList).take 32 = (Digest.ofText right.source.text.toList).take 32 →
        left.source = right.source) :
    (∀ left ∈ calls, ∀ right ∈ calls, left.source = right.source → left.url = right.url) ∧
    (∀ left ∈ calls, ∀ right ∈ calls, (pathOf root).after? left.source = none →
      (pathOf root).after? right.source = none → left.source ≠ right.source → left.url ≠ right.url) ∧
    (∀ place target, last.entry? place = some (.link target) →
      first.entry? place = some (.link target) ∨ ∃ call ∈ calls, call.Makes place target) ∧
    (∀ call ∈ calls, ∀ place target, call.Makes place target →
      target = call.source ∧ (∃ folder, place = folder ++ [linkName target]) ∧
      last.entry? place = some (.link target) ∧
      ((∃ there, call.before.locate ⟨call.path⟩ = .ok there) →
        linker.link last (pathOf place).text = (.ok call.url, last))) ∧
    (calls.Pairwise fun later earlier => ∀ place other left right, later.Makes place left →
      earlier.Makes other right → place ≠ other ∧ left ≠ right) ∧
    first.Keeps last := by
  obtain ⟨kept, each, order, links⟩ := run.each located
  refine ⟨fun left one right other equal => ?_, fun left one right other out outer apart equal => ?_, links,
    fun call member place target made => ?_, ?_, kept⟩
  · rw [(each left one).1.url, (each right other).1.url, equal]
  · rw [(each left one).1.url, (each right other).1.url, urlOf, urlOf, out, outer] at equal
    refine apart (injective left one right other ?_)
    rw [← take_linkName, linkName_of_address equal, take_linkName]
  · obtain ⟨answers, onward⟩ := each call member
    obtain ⟨folder, same, _⟩ := answers.named made
    refine ⟨(answers.made made).1, ⟨folder, same⟩, onward.entry made.2, ?_⟩
    rintro ⟨there, stood⟩
    exact answers.relink (kept.locate located) onward made stood
  · refine order.imp_of_mem fun {later earlier} one two between place other left right made before => ?_
    obtain ⟨rfl, _, placed⟩ := (each later one).1.made made
    obtain ⟨rfl, _, stood⟩ := (each earlier two).1.made before
    have apart : place ≠ other := by
      rintro rfl
      cases made.1.symm.trans (between.entry before.2)
    refine ⟨apart, fun same => ?_⟩
    have again := (each later one).1.kept.newPlace? (between.newPlace? stood)
    rw [← same, placed] at again
    cases again
    exact apart rfl

def porch : Tree where
  entries := [(["web"], .folder), (["src"], .folder), (["src", "app.js"], .file [])]
  home := []

def porchLinker : Linker := { publicRoot := "/web", internalRoot := ⟨"/web"⟩ }

theorem run_links_porch :
    let call : LinkCall := ⟨porch, "/src/app.js", "/web/auto/fdef1098cb23b8c493ce0586780e27d2.js",
      (porchLinker.link porch "/src/app.js").2⟩
    Run porchLinker porch [call] call.after ∧
      call.after.entry? ["web", "auto", "fdef1098cb23b8c493ce0586780e27d2.js"] =
        some (.link ⟨"/src/app.js"⟩) ∧
      porchLinker.link call.after call.url = (.ok call.url, call.after) ∧ porch.Keeps call.after := by
  intro call
  have answer : (porchLinker.link porch "/src/app.js").1 = .ok call.url :=
    toOption_eq_some.mp (by decide +kernel)
  have run : Run porchLinker porch [call] call.after := .call .start (by decide +kernel) (Prod.ext answer rfl)
  have made : call.Makes ["web", "auto", "fdef1098cb23b8c493ce0586780e27d2.js"] ⟨"/src/app.js"⟩ :=
    ⟨rfl, by decide +kernel⟩
  have located : porch.locate porchLinker.internalRoot = .ok ["web"] := rfl
  have linked := run_links located run fun left one right other _ => by
    rw [mem_singleton.mp one, mem_singleton.mp other]
  obtain ⟨_, _, stands, again⟩ := linked.2.2.2.1 call mem_cons_self _ _ made
  exact ⟨run, stands, again ⟨["src", "app.js"], toOption_eq_some.mp (by decide +kernel)⟩, linked.2.2.2.2.2⟩

end Linker

end PageScript
