import PageScript.Proofs.Page.Tale

/-! The assets of a page: those of everything that was begun (`Renderer.render_assets`). -/

open List

namespace PageScript

def AssetSet.Indexed (assets : AssetSet) : Prop :=
  ∀ path ∈ assets.seen, ∃ asset ∈ assets.items, asset.path = path

theorem AssetSet.addAll_spec (assets : AssetSet) (others : List Asset) (indexed : assets.Indexed) :
    (∀ asset ∈ (assets.addAll others).items, asset ∈ assets.items ∨ asset ∈ others) ∧
      (∀ asset ∈ others, asset.path ∈ (assets.addAll others).seen) ∧
      assets.seen ⊆ (assets.addAll others).seen ∧ (assets.addAll others).Indexed := by
  refine ⟨?_, fun asset member => contains_iff_mem.mp (assets.contains_addAll member), ?_, ?_⟩
  · intro asset member
    rw [addAll_eq] at member
    refine (mem_append.mp member).imp_right fun added => ?_
    exact (firstsBy_sublist Asset.path others).subset (mem_filter.mp added).1
  · rw [addAll_eq]
    exact subset_append_right _ _
  · rw [addAll_eq]
    intro path member
    rcases mem_append.mp member with added | known
    · obtain ⟨asset, among, same⟩ := mem_map.mp (mem_reverse.mp added)
      exact ⟨asset, mem_append_right _ among, same⟩
    · obtain ⟨asset, among, same⟩ := indexed path known
      exact ⟨asset, mem_append_left _ among, same⟩

namespace LinkedAssets

def ofKind (linked : LinkedAssets) : AssetKind → List String
  | .script => linked.scripts
  | .style => linked.styles
  | .module => linked.modules

end LinkedAssets

/-- An asset has an address: a module its path, and any other that of a link to it. -/
def Asset.HasAddress (linker : Linker) (asset : Asset) (address : String) : Prop :=
  match asset.kind with
  | .module => asset.path = address
  | _ => ∃ tree, (linker.link tree asset.path).1 = .ok address

private theorem mem_appendNew {items : List String} {item other : String} :
    other ∈ appendNew items item ↔ other ∈ items ∨ other = item := by
  unfold appendNew
  split
  · rename_i known
    constructor
    · exact .inl
    · rintro (member | rfl)
      · exact member
      · exact contains_iff_mem.mp known
  · simp

namespace LinkedAssets

/-- What linking assets comes to: addresses are kept, the new ones are those of the assets, and an asset
without one is noted. -/
structure Linking (linker : Linker) (before : LinkedAssets) (items : List Asset) (after : LinkedAssets)
    (notes : List Diagnostic) : Prop where
  kept : ∀ kind, before.ofKind kind ⊆ after.ofKind kind
  found : ∀ kind, ∀ address ∈ after.ofKind kind, address ∈ before.ofKind kind ∨
    ∃ asset ∈ items, asset.kind = kind ∧ asset.HasAddress linker address
  covered : ∀ asset ∈ items,
    (∃ address ∈ after.ofKind asset.kind, asset.HasAddress linker address) ∨
      ∃ note ∈ notes, note.file = some asset.path

variable {linker : Linker} {before middle after : LinkedAssets} {asset : Asset} {rest : List Asset}
  {notes : List Diagnostic}

theorem Linking.cons (address : String) (has : asset.HasAddress linker address)
    (added : ∀ kind other, other ∈ middle.ofKind kind ↔
      other ∈ before.ofKind kind ∨ kind = asset.kind ∧ other = address)
    (linking : Linking linker middle rest after notes) :
    Linking linker before (asset :: rest) after notes := by
  refine ⟨?_, ?_, forall_mem_cons.mpr ⟨.inl ⟨address, ?_, has⟩, linking.covered⟩⟩
  · intro kind other member
    exact linking.kept kind ((added kind other).mpr (.inl member))
  · intro kind other member
    rcases linking.found kind other member with early | ⟨later, among, same, found⟩
    · rcases (added kind other).mp early with old | ⟨rfl, rfl⟩
      · exact .inl old
      · exact .inr ⟨asset, mem_cons_self, rfl, has⟩
    · exact .inr ⟨later, mem_cons_of_mem _ among, same, found⟩
  · exact linking.kept asset.kind ((added asset.kind address).mpr (.inr ⟨rfl, rfl⟩))

theorem Linking.cons_noted {note : Diagnostic} (noted : note.file = some asset.path)
    (linking : Linking linker before rest after notes) :
    Linking linker before (asset :: rest) after (note :: notes) := by
  refine ⟨linking.kept, ?_, forall_mem_cons.mpr ⟨.inr ⟨note, mem_cons_self, noted⟩, ?_⟩⟩
  · intro kind address member
    rcases linking.found kind address member with old | ⟨later, among, same, found⟩
    · exact .inl old
    · exact .inr ⟨later, mem_cons_of_mem _ among, same, found⟩
  · intro later member
    rcases linking.covered later member with shown | ⟨other, among, same⟩
    · exact .inl shown
    · exact .inr ⟨other, mem_cons_of_mem _ among, same⟩

theorem linkInto_linking (linker : Linker) (tree : Tree) (linked : LinkedAssets) (items : List Asset) :
    Linking linker linked items (linkInto linker tree linked items).1
      (linkInto linker tree linked items).2.1 := by
  induction items generalizing tree linked with
  | nil => exact ⟨fun _ => List.Subset.refl _, fun _ _ member => .inl member, forall_mem_nil _⟩
  | cons asset rest ih =>
    obtain ⟨path, kind⟩ := asset
    rw [linkInto]
    cases kind with
    | module =>
      refine Linking.cons path rfl ?_ (ih tree _)
      intro kind other
      cases kind <;> simp [ofKind]
    | script | style =>
      cases link : linker.link tree path with
      | mk outcome later =>
        cases outcome with
        | error failure => exact Linking.cons_noted rfl (ih later linked)
        | ok address =>
          refine Linking.cons address ⟨tree, congrArg Prod.fst link⟩ ?_ (ih later _)
          intro kind other
          cases kind <;> simp [ofKind, mem_appendNew]

end LinkedAssets

namespace Renderer

/-- The assets of a page are those of the ledger of its rendering. It has the snippets of the page and the
plugins listed in the payload as those entries that were rendered. All assets of the ledger are linked, in
order and each path once: every address of the payload is that of an asset of an entry, whether that was
rendered or skipped, and every asset of an entry has its path on the page, as an address or in a
diagnostic. -/
theorem render_assets (renderer : Renderer) (tree after : Tree) (entry : PluginEntry) (page : Page)
    (done : renderer.render tree entry = .ok (page, after)) :
    ∃ (log : List Begun) (accounts : List Account),
      (∀ others more, Records renderer tree entry page others more ↔ others = log ∧ more = accounts) ∧
      log.flatMap Begun.renderedKeys = page.snippets.map Snippet.key ∧
      (log.filterMap Begun.payload?).Perm page.payload.plugins ∧
      (∃ linking, linking.filePlaces = tree.filePlaces ∧
        page.payload.assets = (LinkedAssets.ofAssets renderer.linker linking
          (({} : AssetSet).addAll (log.flatMap Begun.assets))).1) ∧
      (∀ kind, ∀ address ∈ page.payload.assets.ofKind kind, ∃ begun ∈ log, ∃ asset ∈ begun.assets,
        asset.kind = kind ∧ asset.HasAddress renderer.linker address) ∧
      (∀ begun ∈ log, ∀ asset ∈ begun.assets,
        (∃ kind, ∃ address ∈ page.payload.assets.ofKind kind,
          Asset.HasAddress renderer.linker ⟨asset.path, kind⟩ address) ∨
        ∃ note ∈ page.diagnostics, note.file = some asset.path) := by
  obtain ⟨log, accounts, records⟩ := render_records done
  obtain ⟨root, state, tale, assembled⟩ := records.tale
  obtain ⟨linking, files, linked, noted⟩ := assembled.assets
  have collected : state.assets = ({} : AssetSet).addAll (log.flatMap Begun.assets) := tale.logs.assets
  obtain ⟨only, all, _, indexed⟩ :=
    AssetSet.addAll_spec {} (log.flatMap Begun.assets) (List.forall_mem_nil _)
  have outcome := LinkedAssets.linkInto_linking renderer.linker linking {} state.assets.items
  rw [LinkedAssets.ofAssets] at linked noted
  rw [← linked] at outcome
  rw [← collected] at only all indexed
  refine ⟨log, accounts, records.iff, ?_, ?_, ⟨linking, files.trans tale.logs.files, ?_⟩, ?_, ?_⟩
  · rw [assembled.snippets]
    exact tale.logs.snippets.symm
  · rw [assembled.plugins]
    exact tale.logs.plugins.symm
  · rw [linked, collected]
    rfl
  · intro kind address member
    rcases outcome.found kind address member with old | ⟨asset, among, same, has⟩
    · cases kind <;> cases old
    · rcases only asset among with old | fresh
      · cases old
      · obtain ⟨begun, within, holds⟩ := List.mem_flatMap.mp fresh
        exact ⟨begun, within, asset, holds, same, has⟩
  · intro begun within asset holds
    obtain ⟨first, among, same⟩ := indexed _ (all asset (List.mem_flatMap.mpr ⟨begun, within, holds⟩))
    rw [← same]
    rcases outcome.covered first among with ⟨address, shown, has⟩ | ⟨note, member, file⟩
    · exact .inl ⟨first.kind, address, shown, has⟩
    · exact .inr ⟨note, noted member, file⟩

def lampTree : Tree where
  entries := [
    (["lamp"], .folder), (["lamp", "lx-config.json"], .file "\x7b\x7d".toList),
    (["lamp", "snippets"], .folder), (["lamp", "snippets", "_root.js"], .file "root".toList),
    (["lamp", "snippets", "bulb.js"], .file "@lx:css ./a.css;".toList)]
  home := []

def lampRenderer : Renderer where
  compiler := { modules := { root := ⟨"/"⟩, modules := [] }, widgets := .empty }
  plugins := { root := ⟨"/"⟩ }
  execute := fun _ script _ =>
    if script.head? = some 'r' then
      let bulb : Data := .record [("key", .text "bulb"), ("path", .text "bulb")]
      .ok { result := .record [("lxElements", .list [.record [("snippet", bulb)]])] }
    else .ok { result := .null, fatal := some "dark" }
  linker := { publicRoot := "", internalRoot := ⟨"/"⟩ }

/-- The snippet is not on the page, but its stylesheet is. -/
theorem render_assets_lamp :
    ∃ (page : Page) (after : Tree) (log : List Begun),
      lampRenderer.render lampTree { name := "lamp", path := "/lamp" } = .ok (page, after) ∧
      page.snippets.map Snippet.key = ["lx-1"] ∧
      page.payload.assets.styles = ["/lamp/snippets/a.css"] ∧
      log.flatMap Begun.renderedKeys = ["lx-1"] ∧
      ∃ begun ∈ log, ∃ asset ∈ begun.assets,
        asset.HasAddress lampRenderer.linker "/lamp/snippets/a.css" := by
  have evaluated :
      (lampRenderer.render lampTree { name := "lamp", path := "/lamp" }).toOption.map
        (fun answer => (answer.1.snippets.map Snippet.key, answer.1.payload.assets.styles)) =
      some (["lx-1"], ["/lamp/snippets/a.css"]) := by
    decide +kernel
  obtain ⟨⟨page, after⟩, done, same⟩ := toOption_map_eq_some.mp evaluated
  obtain ⟨keys, styles⟩ := Prod.mk.inj same
  dsimp only at keys styles
  obtain ⟨log, _, _, rendered, _, _, found, _⟩ :=
    render_assets lampRenderer lampTree after _ page done
  have shown : "/lamp/snippets/a.css" ∈ page.payload.assets.ofKind .style := by
    rw [LinkedAssets.ofKind, styles]
    exact List.mem_cons_self
  obtain ⟨begun, within, asset, holds, _, has⟩ := found .style _ shown
  exact ⟨page, after, log, done, keys, styles, rendered.trans keys, begun, within, asset, holds, has⟩

end Renderer

namespace AssetSet

/-- Merging sets that registrations and merges have made lists the items of the first set and then those of
the second whose paths are new, in order, each as it was registered first. So it is associative and
idempotent. A set depends only on what was registered first for each path, and so do the assets of a
page. -/
theorem merge_orderedUnion {a b c : AssetSet} {first second third : List Asset} (gathersA : Gathers first a)
    (gathersB : Gathers second b) (gathersC : Gathers third c) :
    (a.merge b).items = a.items ++ b.items.filter (! a.contains ·.path) ∧
      (∀ asset ∈ (a.merge b).items, (first ++ second).find? (·.path == asset.path) = some asset) ∧
      (a.merge b).Sound ∧ a.items <+: (a.merge b).items ∧
      (a.merge b).merge c = a.merge (b.merge c) ∧ a.merge a = a ∧ (a.merge b).merge b = a.merge b ∧
      (firstsBy Asset.path first = firstsBy Asset.path second → a = b) ∧
      ∀ (renderer : Renderer) (tree after : Tree) (entry : PluginEntry) (page : Page),
        renderer.render tree entry = .ok (page, after) →
        ∃ (log : List Renderer.Begun) (accounts : List Renderer.Account) (linking : Tree),
          (∀ others more, Renderer.Records renderer tree entry page others more ↔
            others = log ∧ more = accounts) ∧
          linking.filePlaces = tree.filePlaces ∧
          log.flatMap Renderer.Begun.renderedKeys = page.snippets.map Snippet.key ∧
          page.payload.assets = (LinkedAssets.linkInto renderer.linker linking {}
            (firstsBy Asset.path (log.flatMap Renderer.Begun.assets))).1 := by
  have merged := gathersA.merge gathersB
  have union : (a.merge b).items = a.items ++ b.items.filter (! a.contains ·.path) := by
    rw [merge, addAll_eq, fresh, firstsBy_of_nodup _ gathersB.sound.distinct]
  have own : ∀ asset ∈ a.items, a.contains asset.path = true := fun asset member =>
    (gathersA.sound.index _).mpr (mem_map_of_mem member)
  refine ⟨union, ?_, merged.sound, ⟨_, union.symm⟩, ?_, merge_of_known own,
    merge_of_known fun _ => a.contains_addAll, ?_, ?_⟩
  · intro asset member
    rw [merged.eq_addAll, items_addAll_empty] at member
    rw [← find?_firstsBy]
    cases found : (firstsBy Asset.path (first ++ second)).find? (·.path == asset.path) with
    | none => exact absurd (beq_self_eq_true _) (List.find?_eq_none.mp found asset member)
    | some other =>
      have same := List.find?_some found
      exact congrArg some (List.inj_on_of_nodup_map (nodup_firstsBy _ _)
        (List.mem_of_find?_eq_some found) member (eq_of_beq same))
  · rw [(merged.merge gathersC).eq_addAll, (gathersA.merge (gathersB.merge gathersC)).eq_addAll,
      List.append_assoc]
  · intro same
    rw [gathersA.eq_addAll, gathersB.eq_addAll, ← addAll_firstsBy, same, addAll_firstsBy]
  · intro renderer tree after entry page done
    obtain ⟨log, accounts, records⟩ := Renderer.render_records done
    obtain ⟨root, state, tale, assembled⟩ := records.tale
    obtain ⟨linking, files, linked, _⟩ := assembled.assets
    refine ⟨log, accounts, linking, records.iff, files.trans tale.logs.files, ?_, ?_⟩
    · rw [assembled.snippets]
      exact tale.logs.snippets.symm
    · rw [linked, LinkedAssets.ofAssets, tale.logs.assets, items_addAll_empty]

/-- One path is registered as a style first and as a script later. -/
theorem merge_orderedUnion_conflict :
    ∃ a b : AssetSet, Gathers [⟨"x", .style⟩] a ∧ Gathers [⟨"y", .script⟩, ⟨"x", .script⟩] b ∧
      (a.merge b).items = [⟨"x", .style⟩, ⟨"y", .script⟩] ∧ (a.merge b).merge b = a.merge b := by
  have gathersA := Gathers.empty.add ⟨"x", .style⟩
  have gathersB := (Gathers.empty.add ⟨"y", .script⟩).add ⟨"x", .script⟩
  obtain ⟨union, _, _, _, _, _, again, _⟩ := merge_orderedUnion gathersA gathersB .empty
  exact ⟨_, _, gathersA, gathersB, union.trans (by decide), again⟩

end AssetSet

end PageScript
