import PageScript.Locale.Load
import PageScript.Proofs.Keyed
import PageScript.Proofs.Outcome

/-! What merging tables of texts comes to (`get?_mergeAll`). -/

namespace PageScript

open Keyed Option List

namespace LocaleTable

variable (table : LocaleTable) (space : Option String) {added : List (String × LocaleTable)}

def entryUnder? (space : Option String) (entries : Keyed String) (key : String) : Option String :=
  (entries.find? fun entry => qualified space entry.1 == key).map (·.2)

/-- The text that a table claims for a key when it is merged under a namespace. -/
def claim? (table : LocaleTable) (space : Option String) (language key : String) : Option String :=
  (table.languages.get? language).bind (entryUnder? space · key)

private theorem get?_mergeEntries (target entries : Keyed String) (key : String) :
    (mergeEntries space target entries).1.get? key =
      (target.get? key).or (entryUnder? space entries key) := by
  induction entries generalizing target with
  | nil => exact (or_none).symm
  | cons entry rest ih =>
    obtain ⟨name, text⟩ := entry
    rw [mergeEntries, entryUnder?, find?_cons]
    cases there : target.get? (qualified space name) with
    | some existing =>
      dsimp only
      rw [ih]
      by_cases same : qualified space name = key
      · rw [← same, there, some_or, some_or]
      · rw [beq_eq_false_iff_ne.mpr same]
        rfl
    | none =>
      dsimp only
      rw [ih]
      by_cases same : qualified space name = key
      · rw [← same, get?_put_self, there, BEq.rfl]
        rfl
      · rw [get?_put_of_ne (Ne.symm same), beq_eq_false_iff_ne.mpr same]
        rfl

private theorem get?_mergeLanguages {other : Keyed (Keyed String)}
    (distinct : (keys other).Nodup) (target : Keyed (Keyed String)) (language key : String) :
    ((mergeLanguages space target other).1.get? language).bind (·.get? key) =
      ((target.get? language).bind (·.get? key)).or
        ((other.get? language).bind (entryUnder? space · key)) := by
  induction other generalizing target with
  | nil => exact (or_none).symm
  | cons entry rest ih =>
    obtain ⟨name, entries⟩ := entry
    obtain ⟨new, others⟩ := nodup_cons.mp distinct
    rw [mergeLanguages]
    dsimp only
    rw [ih others]
    by_cases same : language = name
    · subst same
      rw [get?_put_self, get?_of_not_mem new, get?_cons_self, bind_some, bind_some,
        bind_none, or_none, get?_mergeEntries]
      cases target.get? language <;> rfl
    · rw [get?_put_of_ne same, get?_cons_of_ne same]

theorem get?_merge {other : LocaleTable} (distinct : (keys other.languages).Nodup)
    (table : LocaleTable) (space : Option String) (language key : String) :
    (table.merge space other).1.get? language key =
      (table.get? language key).or (other.claim? space language key) :=
  get?_mergeLanguages space distinct table.languages language key

private theorem qualified_inj {space name key : String} :
    qualified (some space) name = qualified (some space) key ↔ name = key := by
  simp [qualified, ← String.toList_inj]

theorem qualified_injective : Function.Injective (qualified space) := by
  cases space with
  | none => exact fun _ _ same => same
  | some space => exact fun _ _ => qualified_inj.mp

private theorem entryUnder?_qualified (entries : Keyed String) (name : String) :
    entryUnder? space entries (qualified space name) = entries.get? name := by
  induction entries with
  | nil => rfl
  | cons entry rest ih =>
    obtain ⟨other, text⟩ := entry
    rw [entryUnder?, find?_cons]
    by_cases same : other = name
    · rw [same, BEq.rfl, get?_cons_self]
      rfl
    · rw [beq_eq_false_iff_ne.mpr ((qualified_injective space).ne same),
        get?_cons_of_ne (Ne.symm same)]
      exact ih

theorem claim?_eq (language name : String) :
    table.claim? space language (qualified space name) = table.get? language name := by
  simp only [claim?, get?, entryUnder?_qualified]

private theorem claim?_qualified (space language key : String) :
    table.claim? (some space) language (space ++ "." ++ key) = table.get? language key :=
  table.claim?_eq (some space) language key

def mergeAll (table : LocaleTable) (added : List (String × LocaleTable)) : LocaleTable :=
  added.foldl (fun merged item => (merged.merge (some item.1) item.2).1) table

/-- The texts for a key in a language in the order in which they are claimed: the one that is there,
then those of the tables that are merged. -/
def claims (table : LocaleTable) (added : List (String × LocaleTable)) (language key : String) :
    List String :=
  (table.get? language key).toList ++
    added.filterMap fun item => item.2.claim? (some item.1) language key

theorem get?_mergeAll
    (distinct : ∀ item ∈ added, (keys item.2.languages).Nodup) (table : LocaleTable)
    (language key : String) :
    (table.mergeAll added).get? language key = (claims table added language key).head? := by
  induction added generalizing table with
  | nil =>
    change table.get? language key = ((table.get? language key).toList ++ []).head?
    cases table.get? language key <;> rfl
  | cons item rest ih =>
    obtain ⟨first, others⟩ := forall_mem_cons.mp distinct
    change ((table.merge (some item.1) item.2).1.mergeAll rest).get? language key = _
    rw [ih others, claims, claims, get?_merge first, filterMap_cons]
    cases table.get? language key <;> cases item.2.claim? (some item.1) language key <;> rfl

theorem mem_claims {name : String}
    {own : LocaleTable} (member : (name, own) ∈ added) {language key text : String}
    (has : own.get? language key = some text) :
    text ∈ claims table added language (name ++ "." ++ key) := by
  apply mem_append_right
  rw [mem_filterMap]
  exact ⟨(name, own), member, (claim?_qualified own name language key).trans has⟩

theorem load_distinct {tree : Tree} {path : Path} {table : LocaleTable}
    (loaded : load tree path = .ok table) : (keys table.languages).Nodup := by
  unfold load at loaded
  obtain ⟨data, _, read⟩ := bind_eq_ok.mp loaded
  split at read
  · rename_i found known
    cases read
    unfold ofData? at known
    split at known
    · cases known
      exact (sorted_ofList _).nodup
    · cases known
  · cases read

end LocaleTable

end PageScript
