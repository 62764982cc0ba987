import PageScript.Proofs.Page.Rendering

/-! A reference leads to a snippet, or it is skipped with a diagnostic of its own. -/

open List

namespace PageScript

namespace Renderer

private theorem length_settlements (settlements : List Settlement) :
    settlements.length = (settlements.filterMap Settlement.key).length +
      (settlements.filter (·.key.isNone)).length := by
  induction settlements with
  | nil => rfl
  | cons settlement rest ih =>
    rw [filterMap_cons, filter_cons, length_cons, ih]
    cases settlement.key with
    | none => rfl
    | some key => exact Nat.succ_add _ _ |>.symm

/-- No reference is lost without a word. Each snippet of a page has an account: its script handed back
references, they were followed one after another, and those that led to a snippet are listed by its key
in the payload, so that they are as many as there are keys and skipped references together. While a
reference was skipped diagnostics were added, which are on the page, and no two skipped references of
the page share one. -/
theorem render_references (renderer : Renderer) (tree after : Tree) (entry : PluginEntry) (page : Page)
    (done : renderer.render tree entry = .ok (page, after)) :
    ∃ (log : List Begun) (accounts : List Account), Records renderer tree entry page log accounts ∧
      accounts.map Account.snippet = page.snippets ∧
      (∀ account ∈ accounts, account.Sound renderer ∧
        Keyed.get? page.payload.snippets account.visit.key = some account.entry ∧
        account.result.pointers.length = account.entry.snippets.length + account.skipped.length) ∧
      (∀ skipped ∈ accounts.flatMap Account.skipped,
        skipped.before.Noted skipped.after ∧ skipped.after.diagnostics <+: page.diagnostics) ∧
      (accounts.flatMap Account.skipped).Pairwise Settlement.Apart := by
  obtain ⟨log, accounts, records⟩ := render_records done
  obtain ⟨root, state, tale, assembled⟩ := records.tale
  have pageOf := tale.pageOf assembled
  have listed : accounts.map Account.snippet = page.snippets :=
    (assembled.snippets.trans tale.snippets).symm
  refine ⟨log, accounts, records, listed, ?_, ?_, tale.spread.apart⟩
  · intro account member
    have sound := tale.sound account member
    refine ⟨sound, ?_, ?_⟩
    · have nodes := congrArg (map (Prod.map Snippet.key id)) tale.nodes
      rw [map_map, map_map, Lineage.nodesAll_singleton] at nodes
      have perm : root.entries.Perm (accounts.map fun account => (account.visit.key, account.entry)) := by
        have all := Lineage.entriesAll_perm [root]
        rw [Lineage.entriesAll, Lineage.entriesAll, append_nil, Lineage.nodesAll_singleton] at all
        exact all.trans (.of_eq nodes)
      rw [pageOf.entries]
      exact Keyed.get?_putAll_of_mem (pageOf.whole.keys_entries.2) (perm.mem_iff.mpr (mem_map_of_mem member))
    · rw [← sound.pointers, List.length_map]
      exact length_settlements account.settlements
  · intro skipped member
    obtain ⟨_, noted, shown⟩ := tale.spread.within skipped member
    exact ⟨noted, shown.trans assembled.diagnostics⟩

def gapRenderer : Renderer where
  compiler := { modules := { root := ⟨"/"⟩, modules := [] }, widgets := .empty }
  plugins := { root := ⟨"/"⟩ }
  execute := fun _ script _ =>
    let book : Data := .record [("key", .text "first"), ("path", .text "book")]
    let ghost : Data := .record [("path", .text "ghost")]
    let result : Data :=
      if script.head? = some 'r' then
        .record [("lxElements", .list [.record [("snippet", book)], .record [("snippet", ghost)],
            .record [("snippet", book)]]),
          ("subPlugins", .list [.record [("name", .text "nobody")]])]
      else .null
    .ok { result }
  linker := { publicRoot := "/", internalRoot := ⟨"/"⟩ }

theorem render_references_gap :
    ∃ (page : Page) (after : Tree) (accounts : List Account),
      gapRenderer.render shelfTree { name := "shelf", path := "/shelf" } = .ok (page, after) ∧
      page.diagnostics.length = 3 ∧
      accounts.map (fun account => account.snippet.key) = ["lx-1", "first"] ∧
      (∀ account ∈ accounts, account.Sound gapRenderer) ∧
      (∀ skipped ∈ accounts.flatMap Account.skipped,
        skipped.before.Noted skipped.after ∧ skipped.after.diagnostics <+: page.diagnostics) := by
  have evaluated :
      (gapRenderer.render shelfTree { name := "shelf", path := "/shelf" }).toOption.map
        (fun answer => (answer.1.diagnostics.length, answer.1.snippets.map Snippet.key)) =
      some (3, ["lx-1", "first"]) := by
    decide +kernel
  obtain ⟨⟨page, after⟩, done, same⟩ := toOption_map_eq_some.mp evaluated
  obtain ⟨count, keys⟩ := Prod.mk.inj same
  obtain ⟨_, accounts, _, listed, sound, noted, _⟩ :=
    render_references gapRenderer shelfTree after _ page done
  refine ⟨page, after, accounts, done, count, ?_, fun account member => (sound account member).1, noted⟩
  rw [← keys, ← listed, List.map_map]
  rfl

end Renderer

end PageScript
