import Mathlib.Algebra.Ring.Nat
import Mathlib.Data.List.Flatten
import PageScript.Proofs.Page.Tale

/-! What a rendering leaves behind: the snippets, entries and keys of a lineage. -/

open List

namespace PageScript

open Lineage

variable {renderer : Renderer} {page : Page}

namespace Renderer

theorem Begun.renderedKeys_sublist (begun : Begun) : begun.renderedKeys.Sublist begun.keys := by
  cases begun with
  | plugin owner root => exact nil_sublist _
  | snippet visit assets rendered =>
    cases rendered with
    | false => exact nil_sublist _
    | true => exact .refl _

structure PageOf (page : Page) (root : Lineage) : Prop where
  whole : root.Whole
  key : page.root = root.key
  snippets : page.snippets = root.nodes.map snippet
  entries : page.payload.snippets = Keyed.putAll root.entries []
  html : page.html = Whole.markup root

theorem Tale.pageOf {tree : Tree} {state : RenderState} {root : Lineage} {log : List Begun}
    {accounts : List Account} (tale : Tale renderer none { tree } state [root] log accounts)
    (assembled : Assembled renderer root.key state page) : PageOf page root := by
  have nodes := congrArg (map Prod.fst) tale.nodes
  rw [map_map, map_map, nodesAll_singleton] at nodes
  have snippets : state.snippets = root.nodes.map snippet := tale.snippets.trans nodes.symm
  have rendered : root.nodes.map key = log.flatMap Begun.renderedKeys := by
    have keys := tale.logs.snippets
    rw [snippets, map_map] at keys
    exact keys
  have taken : state.keys = log.flatMap Begun.keys := tale.logs.keys
  refine ⟨⟨tale.linked, tale.parents root mem_cons_self, ?_⟩, assembled.key, ?_, ?_, ?_⟩
  · rw [rendered]
    refine (taken ▸ tale.logs.distinct nodup_nil).sublist ?_
    exact .flatMap_right log fun begun _ => begun.renderedKeys_sublist
  · exact assembled.snippets.trans snippets
  · rw [assembled.entries]
    refine tale.entries.trans ?_
    rw [entriesAll, entriesAll, append_nil]
  · rw [assembled.html, snippets]
    rfl

private theorem marked_sizes {marked : List (String × Char)} {snippets : List Snippet}
    (perm : marked.Perm (snippets.flatMap fun inner => inner.html.map (inner.key, ·))) :
    (marked.map Prod.snd).length = (snippets.map fun inner => inner.html.length).sum ∧
      Text.byteLength (marked.map Prod.snd) =
        (snippets.map fun inner => Text.byteLength inner.html).sum := by
  constructor
  · rw [length_map, perm.length_eq, length_flatMap]
    simp only [length_map]
  · have parts := flatMap_map (fun inner : Snippet => (inner.key, inner.html))
      (fun part => part.2.map (part.1, ·)) (l := snippets)
    rw [Markup.byteLength_of_marked (perm.trans (.of_eq parts.symm)), map_map]
    rfl

/-- Whatever the sandbox answers, a rendered page is one tree of snippets. Their keys are distinct, one
of them has no parent, and every other one comes after its parent; the payload and the markup have
just their keys, and each entry lists the children in order. Each character of the body is of one
snippet, and the characters of a snippet, in order, are its own markup. -/
theorem render_page (renderer : Renderer) (tree after : Tree) (entry : PluginEntry) (page : Page)
    (done : renderer.render tree entry = .ok (page, after)) :
    (page.snippets.map Snippet.key).Nodup ∧
    (page.snippets.filter (·.parent.isNone)).map Snippet.key = [page.root] ∧
    (∀ left snippet right, page.snippets = left ++ snippet :: right →
      ∀ parent, snippet.parent = some parent → parent ∈ left.map Snippet.key) ∧
    (Keyed.keys page.payload.snippets).Perm (page.snippets.map Snippet.key) ∧
    (Keyed.keys page.html).Perm (page.snippets.map Snippet.key) ∧
    (∀ snippet ∈ page.snippets, ∃ entry,
      Keyed.get? page.payload.snippets snippet.key = some entry ∧
      entry.snippets =
        (page.snippets.filter (·.parent == some snippet.key)).map Snippet.key) ∧
    (∃ marked : List (String × Char), marked.map Prod.snd = page.body ∧
      (∀ mark ∈ marked, mark.1 ∈ page.snippets.map Snippet.key) ∧
      ∀ snippet ∈ page.snippets,
        (marked.filter (·.1 == snippet.key)).map Prod.snd = snippet.html) ∧
    page.body.length = (page.snippets.map fun snippet => snippet.html.length).sum ∧
    Text.byteLength page.body =
      (page.snippets.map fun snippet => Text.byteLength snippet.html).sum := by
  obtain ⟨log, accounts, records⟩ := render_records done
  obtain ⟨root, state, tale, assembled⟩ := records.tale
  obtain ⟨whole, key, snippets, entries, html⟩ := tale.pageOf assembled
  have keys : page.snippets.map Snippet.key = root.nodes.map Lineage.key := by
    rw [snippets, List.map_map]
    rfl
  obtain ⟨marked, rendered, perm, shares⟩ := whole.body_marked
  have body : marked.map Prod.snd = page.body := by
    rw [Page.body, html, key, rendered]
    rfl
  rw [← snippets] at perm
  obtain ⟨length, bytes⟩ := marked_sizes perm
  refine ⟨?_, ?_, ?_, ?_, ?_, ?_, ⟨marked, body, ?_, ?_⟩, body ▸ length, body ▸ bytes⟩
  · rw [keys]
    exact whole.distinct
  · rw [snippets, key]
    exact whole.filter_outermost
  · intro left snippet right split parent named
    exact whole.parent_before (snippets ▸ split) named
  · rw [keys, entries]
    exact whole.keys_entries.1
  · rw [keys, html]
    exact whole.keys_markup
  · rw [entries, snippets]
    intro snippet member
    exact whole.entry_listed member
  · intro mark member
    obtain ⟨snippet, within, marks⟩ := List.mem_flatMap.mp (perm.mem_iff.mp member)
    obtain ⟨_, _, rfl⟩ := List.mem_map.mp marks
    exact List.mem_map_of_mem within
  · rw [snippets]
    exact shares

def shelfTree : Tree where
  entries := [
    (["shelf"], .folder), (["shelf", "lx-config.json"], .file "\x7b\x7d".toList),
    (["shelf", "snippets"], .folder), (["shelf", "snippets", "_root.js"], .file "root".toList),
    (["shelf", "snippets", "book.js"], .file "book".toList)]
  home := []

def shelfRenderer : Renderer where
  compiler := { modules := { root := ⟨"/"⟩, modules := [] }, widgets := .empty }
  plugins := { root := ⟨"/"⟩ }
  execute := fun _ script _ =>
    let reference : Data := .record [("key", .text "first"), ("path", .text "book")]
    let result : Data :=
      if script.head? = some 'r' then
        .record [("html", .text "<ul id='first'></ul>"),
          ("lxElements", .list [.record [("snippet", reference)]])]
      else .record [("html", .text "<li/>")]
    .ok { result }
  linker := { publicRoot := "/", internalRoot := ⟨"/"⟩ }

theorem render_page_shelf :
    ∃ page after,
      shelfRenderer.render shelfTree { name := "shelf", path := "/shelf" } = .ok (page, after) ∧
      page.snippets.map Snippet.key = ["lx-1", "first"] ∧
      (page.snippets.filter (·.parent.isNone)).map Snippet.key = [page.root] ∧
      (Keyed.keys page.html).Perm ["lx-1", "first"] ∧ page.body.length = 25 := by
  have evaluated :
      (shelfRenderer.render shelfTree { name := "shelf", path := "/shelf" }).toOption.map
        (fun answer => (answer.1.snippets.map Snippet.key,
          (answer.1.snippets.map fun snippet => snippet.html.length).sum)) =
      some (["lx-1", "first"], 25) := by
    decide +kernel
  obtain ⟨⟨page, after⟩, done, same⟩ := toOption_map_eq_some.mp evaluated
  obtain ⟨keys, total⟩ := Prod.mk.inj same
  obtain ⟨_, root, _, _, html, _, _, length, _⟩ :=
    render_page shelfRenderer shelfTree after _ page done
  exact ⟨page, after, done, keys, root, keys ▸ html, length.trans total⟩

end Renderer

end PageScript
