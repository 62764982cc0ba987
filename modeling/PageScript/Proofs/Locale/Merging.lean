import PageScript.Plugin
import PageScript.Proofs.Locale.Flattening

/-! Merging tables is a union in which the first text wins (`LocaleTable.merge_firstWins`). -/

open List

namespace PageScript.LocaleTable

open Keyed (get?_put_self get?_put_of_ne get?_cons_self get?_cons_of_ne)

variable {space : Option String} {target entries : Keyed String} {a b c : LocaleTable}
  {language key : String}

/-- Languages stand in order, and so do the keys of each. -/
structure Ordered (table : LocaleTable) : Prop where
  languages : Keyed.Sorted table.languages
  entries : ∀ item ∈ table.languages, Keyed.Sorted item.2

namespace Ordered

private theorem put (ordered : a.Ordered) (language : String) (sorted : Keyed.Sorted entries) :
    Ordered ⟨a.languages.put language entries⟩ := by
  refine ⟨ordered.languages.put _ _, fun item member => ?_⟩
  rcases Keyed.mem_put member with rfl | old
  · exact sorted
  · exact ordered.entries item old

private theorem sorted_getD (ordered : a.Ordered) (language : String) :
    Keyed.Sorted ((a.languages.get? language).getD []) := by
  cases found : a.languages.get? language with
  | none => exact .nil
  | some entries => exact ordered.entries _ (mem_of_lookup found)

theorem insert (ordered : a.Ordered) (language key text : String) : (a.insert language key text).Ordered :=
  ordered.put language ((ordered.sorted_getD language).put key text)

end Ordered

private theorem ordered_empty : Ordered {} :=
  ⟨.nil, forall_mem_nil _⟩

private theorem sorted_mergeEntries (sorted : Keyed.Sorted target) :
    Keyed.Sorted (mergeEntries space target entries).1 := by
  induction entries generalizing target with
  | nil => exact sorted
  | cons entry rest ih =>
    obtain ⟨name, text⟩ := entry
    rw [mergeEntries]
    split
    · exact ih sorted
    · exact ih (sorted.put _ _)

theorem Ordered.merge (ordered : a.Ordered) (space : Option String) (b : LocaleTable) :
    (a.merge space b).1.Ordered := by
  obtain ⟨languages⟩ := a
  obtain ⟨others⟩ := b
  change Ordered ⟨(mergeLanguages space languages others).1⟩
  induction others generalizing languages with
  | nil => exact ordered
  | cons item rest ih => exact ih _ (ordered.put item.1 (sorted_mergeEntries (ordered.sorted_getD item.1)))

theorem ordered_load {tree : Tree} {file : Path} (loaded : load tree file = .ok a) : a.Ordered := by
  obtain ⟨data, _, read⟩ := bind_eq_ok.mp loaded
  cases data
  case record fields =>
    cases read
    refine ⟨Keyed.sorted_ofList _, fun item member => ?_⟩
    obtain ⟨⟨_, value⟩, _, rfl⟩ := mem_map.mp ((Keyed.mem_putAll member).resolve_right not_mem_nil)
    change Keyed.Sorted (flatten "" [] value)
    rw [flatten_eq]
    exact (show Keyed.Sorted ([] : Keyed String) from .nil).putAll _
  all_goals cases read

theorem Ordered.ext (left : a.Ordered) (right : b.Ordered)
    (languages : ∀ language, (a.languages.get? language).isSome = (b.languages.get? language).isSome)
    (texts : ∀ language key, a.get? language key = b.get? language key) : a = b := by
  refine congrArg LocaleTable.mk (left.languages.ext right.languages fun language => ?_)
  have here := languages language
  have there := texts language
  unfold LocaleTable.get? at there
  cases first : a.languages.get? language <;> cases second : b.languages.get? language <;>
    rw [first, second] at here there
  case some.some =>
    exact congrArg some ((left.entries _ (mem_of_lookup first)).ext
      (right.entries _ (mem_of_lookup second)) there)
  all_goals cases here

theorem isSome_merge (a : LocaleTable) (space : Option String) (b : LocaleTable) (language : String) :
    ((a.merge space b).1.languages.get? language).isSome =
      ((a.languages.get? language).isSome || (b.languages.get? language).isSome) := by
  obtain ⟨languages⟩ := a
  obtain ⟨others⟩ := b
  change (Keyed.get? (mergeLanguages space languages others).1 language).isSome = _
  dsimp only
  induction others generalizing languages with
  | nil => exact (Bool.or_false _).symm
  | cons item rest ih =>
    obtain ⟨name, entries⟩ := item
    rw [mergeLanguages]
    dsimp only
    rw [ih]
    by_cases same : language = name
    · rw [same, get?_put_self, get?_cons_self]
      simp
    · rw [get?_put_of_ne same, get?_cons_of_ne same]

private theorem get?_merge_qualified (second : b.Ordered) (language name : String) :
    (a.merge space b).1.get? language (qualified space name) =
      (a.get? language (qualified space name)).or (b.get? language name) := by
  rw [get?_merge second.languages.nodup, claim?_eq]

private theorem get?_merge_plain (second : b.Ordered) (language key : String) :
    (a.merge none b).1.get? language key = (a.get? language key).or (b.get? language key) :=
  get?_merge_qualified second language key

theorem get?_merge_other (second : b.Ordered) (outside : ∀ name, key ≠ qualified space name) :
    (a.merge space b).1.get? language key = a.get? language key := by
  have nothing (entries : Keyed String) : entryUnder? space entries key = none := by
    rw [entryUnder?, Option.map_eq_none_iff, find?_eq_none]
    exact fun entry _ same => outside entry.1 (eq_of_beq same).symm
  rw [get?_merge second.languages.nodup, claim?]
  simp only [nothing, Option.bind_fun_none, Option.or_none]

def disputed (space : Option String) (target : Keyed String) (entry : String × String) : Bool :=
  (target.get? (qualified space entry.1)).any (· != entry.2)

/-- What is added on the way has other keys, so each text is turned down for one that was there at
first. -/
theorem mergeEntries_disputed (distinct : (Keyed.keys entries).Nodup) :
    (mergeEntries space target entries).2 =
      (entries.filter (disputed space target)).map (qualified space ·.1) := by
  induction entries generalizing target with
  | nil => rfl
  | cons entry rest ih =>
    obtain ⟨name, text⟩ := entry
    obtain ⟨new, others⟩ := nodup_cons.mp distinct
    rw [mergeEntries, filter_cons, disputed]
    dsimp only
    cases there : target.get? (qualified space name) with
    | some existing => by_cases same : existing = text <;> simp [same, ih others]
    | none =>
      refine (ih others).trans (congrArg _ (filter_congr fun entry member => ?_))
      rw [disputed, disputed,
        get?_put_of_ne ((qualified_injective space).ne (Keyed.ne_of_mem new member))]

theorem Ordered.conflicts_eq (second : b.Ordered) (a : LocaleTable) (space : Option String) :
    (a.merge space b).2 = b.languages.flatMap fun item =>
      (item.2.filter (disputed space ((a.languages.get? item.1).getD []))).map
        fun entry => (item.1, qualified space entry.1) := by
  obtain ⟨languages⟩ := a
  obtain ⟨others⟩ := b
  obtain ⟨sorted, entries⟩ := second
  change (mergeLanguages space languages others).2 = _
  dsimp only at *
  induction others generalizing languages with
  | nil => rfl
  | cons item rest ih =>
    obtain ⟨name, own⟩ := item
    obtain ⟨new, _⟩ := nodup_cons.mp sorted.nodup
    obtain ⟨here, entries⟩ := forall_mem_cons.mp entries
    rw [mergeLanguages]
    dsimp only
    rw [ih _ (pairwise_cons.mp sorted).2 entries, flatMap_cons, mergeEntries_disputed here.nodup, map_map]
    refine congrArg (_ ++ ·) (congrArg List.flatten (map_congr_left fun item member => ?_))
    rw [get?_put_of_ne (Keyed.ne_of_mem new member)]

theorem Ordered.get?_eq_some (ordered : b.Ordered) {name text : String} :
    b.get? language name = some text ↔
      ∃ entries, (language, entries) ∈ b.languages ∧ (name, text) ∈ entries := by
  unfold LocaleTable.get?
  rw [Option.bind_eq_some_iff]
  refine exists_congr fun entries => ?_
  rw [← Keyed.mem_iff_get? ordered.languages.nodup]
  refine and_congr_right fun member => ?_
  rw [← Keyed.mem_iff_get? (ordered.entries _ member).nodup]

theorem Ordered.mem_conflicts (second : b.Ordered) :
    (language, key) ∈ (a.merge space b).2 ↔ ∃ name old new, key = qualified space name ∧
      a.get? language key = some old ∧ b.get? language name = some new ∧ old ≠ new := by
  have text : ((a.languages.get? language).getD []).get? key = a.get? language key := by
    unfold LocaleTable.get?
    cases a.languages.get? language <;> rfl
  rw [second.conflicts_eq, mem_flatMap]
  simp only [second.get?_eq_some, ← text, mem_map, mem_filter, disputed, Option.any_eq_true, bne_iff_ne,
    Prod.mk.injEq, Prod.exists]
  constructor
  · rintro ⟨_, entries, member, name, new, ⟨within, old, there, differs⟩, rfl, rfl⟩
    exact ⟨name, old, new, rfl, there, ⟨entries, member, within⟩, differs⟩
  · rintro ⟨name, old, new, rfl, there, ⟨entries, member, within⟩, differs⟩
    exact ⟨language, entries, member, name, new, ⟨within, old, there, differs⟩, rfl, rfl⟩

/-- By language and then by key. -/
def Before (left right : String × String) : Prop :=
  left.1 < right.1 ∨ left.1 = right.1 ∧ left.2 < right.2

theorem Before.asymm {left right : String × String} : Before left right → ¬ Before right left := by
  rintro (before | ⟨same, before⟩) (after | ⟨again, after⟩)
  · exact String.lt_irrefl _ (String.lt_trans before after)
  · exact String.lt_irrefl _ (again ▸ before)
  · exact String.lt_irrefl _ (same ▸ after)
  · exact String.lt_irrefl _ (String.lt_trans before after)

private theorem qualified_lt {name other : String} (before : name < other) :
    qualified space name < qualified space other := by
  cases space with
  | none => exact before
  | some space =>
    change (space ++ "." ++ name).toList < (space ++ "." ++ other).toList
    rw [String.toList_append, @String.toList_append (space ++ ".")]
    exact append_left_lt before

theorem Ordered.conflicts_inOrder (second : b.Ordered) : (a.merge space b).2.Pairwise Before := by
  rw [second.conflicts_eq, pairwise_flatMap]
  constructor
  · intro item member
    have sorted := pairwise_map.mp (second.entries item member)
    exact pairwise_map.mpr ((sorted.filter _).imp fun before => .inr ⟨rfl, qualified_lt before⟩)
  · refine (pairwise_map.mp second.languages).imp fun before first here last there => ?_
    obtain ⟨_, _, rfl⟩ := mem_map.mp here
    obtain ⟨_, _, rfl⟩ := mem_map.mp there
    exact .inl before

theorem Ordered.merge_again (first : a.Ordered) (second : b.Ordered) :
    (a.merge space b).1.merge space b = a.merge space b := by
  refine Prod.ext ?_
    (eq_of_pairwise Before Before.asymm second.conflicts_inOrder second.conflicts_inOrder ?_)
  · refine ((first.merge _ _).merge _ _).ext (first.merge _ _) (fun language => ?_) fun language key => ?_
    · rw [isSome_merge, isSome_merge, Bool.or_assoc, Bool.or_self]
    · rw [get?_merge second.languages.nodup, get?_merge second.languages.nodup, Option.or_assoc,
        Option.or_self]
  · rintro ⟨language, key⟩
    rw [second.mem_conflicts, second.mem_conflicts]
    refine exists_congr fun name => exists_congr fun old => exists_congr fun new => and_congr_right ?_
    rintro rfl
    rw [get?_merge_qualified second]
    cases a.get? language (qualified space name) with
    | some text => rfl
    | none =>
      constructor
      · rintro ⟨there, again, differs⟩
        exact absurd (Option.some.inj (there.symm.trans again)) differs
      · rintro ⟨⟨⟩, _⟩

theorem Ordered.merge_assoc (first : a.Ordered) (second : b.Ordered) (third : c.Ordered) :
    ((a.merge none b).1.merge none c).1 = (a.merge none (b.merge none c).1).1 := by
  refine ((first.merge _ _).merge _ _).ext (first.merge _ _) (fun language => ?_) fun language key => ?_
  · rw [isSome_merge, isSome_merge, isSome_merge, isSome_merge, Bool.or_assoc]
  · rw [get?_merge_plain third, get?_merge_plain second, get?_merge_plain (second.merge _ _),
      get?_merge_plain third, Option.or_assoc]

theorem get?_foldl_merge {files : List LocaleTable} (ordered : ∀ file ∈ files, file.Ordered) :
    (files.foldl (fun merged file => (merged.merge none file).1) a).get? language key =
      (a.get? language key).or (files.findSome? (·.get? language key)) := by
  induction files generalizing a with
  | nil => exact Option.or_none.symm
  | cons file rest ih =>
    obtain ⟨first, others⟩ := forall_mem_cons.mp ordered
    rw [foldl_cons, ih others, findSome?_cons, get?_merge_plain first, Option.or_assoc]
    cases file.get? language key <;> rfl

private theorem get?_locales (plugin : Plugin) (tree : Tree) :
    (plugin.locales tree).get? language key = plugin.config.locales.findSome? fun file =>
      (load tree (plugin.resolve file)).toOption.bind (·.get? language key) := by
  change _ = (LocaleTable.get? {} language key).or _
  unfold Plugin.locales
  generalize ({} : LocaleTable) = table
  induction plugin.config.locales generalizing table with
  | nil => exact Option.or_none.symm
  | cons file rest ih =>
    rw [foldl_cons, ih, findSome?_cons]
    cases loaded : load tree (plugin.resolve file) with
    | error failure => rfl
    | ok other =>
      have joined := get?_merge_plain (a := table) (ordered_load loaded) language key
      simp only [joined, Option.or_assoc, Except.toOption, Option.bind_some]
      cases other.get? language key <;> rfl

/-- Merging keeps the text that was there first and takes the other table's text for any key that had
none. The conflicts are the keys with two texts, once each and in order. Merging again changes nothing,
merging in turn may be done in any grouping, and of a list of files the first that has a key gives its
text. -/
theorem merge_firstWins (a b : LocaleTable) (space : Option String) (first : a.Ordered)
    (second : b.Ordered) :
    (∀ language name, (a.merge space b).1.get? language (qualified space name) =
      (a.get? language (qualified space name)).or (b.get? language name)) ∧
    (∀ language key, (∀ name, key ≠ qualified space name) →
      (a.merge space b).1.get? language key = a.get? language key) ∧
    (∀ language key, (language, key) ∈ (a.merge space b).2 ↔ ∃ name old new,
      key = qualified space name ∧ a.get? language key = some old ∧ b.get? language name = some new ∧
        old ≠ new) ∧
    (a.merge space b).2.Pairwise Before ∧
    (a.merge space b).1.merge space b = a.merge space b ∧
    (∀ c : LocaleTable, c.Ordered →
      ((a.merge none b).1.merge none c).1 = (a.merge none (b.merge none c).1).1) ∧
    (∀ files : List LocaleTable, (∀ file ∈ files, file.Ordered) → ∀ language key,
      (files.foldl (fun merged file => (merged.merge none file).1) ({} : LocaleTable)).get? language key =
        files.findSome? (·.get? language key)) ∧
    ∀ (plugin : Plugin) (tree : Tree) (language key : String),
      (plugin.locales tree).get? language key = plugin.config.locales.findSome? fun file =>
        (load tree (plugin.resolve file)).toOption.bind (·.get? language key) :=
  ⟨fun language name => get?_merge_qualified second language name,
    fun _ _ outside => get?_merge_other second outside, fun _ _ => second.mem_conflicts,
    second.conflicts_inOrder, first.merge_again second, fun _ third => first.merge_assoc second third,
    fun _ ordered _ _ => get?_foldl_merge ordered, fun plugin tree _ _ => get?_locales plugin tree⟩

def shopTexts : LocaleTable :=
  (LocaleTable.insert {} "de" "shop.cart" "Korb").insert "en" "shop.pay" "Pay"

def cartTexts : LocaleTable :=
  (LocaleTable.insert {} "de" "cart" "Wagen").insert "de" "pay" "Zahlen"

theorem merge_firstWins_shop :
    let merged := shopTexts.merge (some "shop") cartTexts
    merged.1.get? "de" "shop.cart" = some "Korb" ∧ merged.1.get? "de" "shop.pay" = some "Zahlen" ∧
      ("de", "shop.cart") ∈ merged.2 ∧ merged.1.merge (some "shop") cartTexts = merged := by
  obtain ⟨texts, _, conflicts, _, again, _⟩ := merge_firstWins shopTexts cartTexts (some "shop")
    ((ordered_empty.insert _ _ _).insert _ _ _) ((ordered_empty.insert _ _ _).insert _ _ _)
  refine ⟨(texts "de" "cart").trans (by decide), (texts "de" "pay").trans (by decide), ?_, again⟩
  exact (conflicts _ _).mpr ⟨"cart", "Korb", "Wagen", by decide, by decide, by decide, by decide⟩

end PageScript.LocaleTable
