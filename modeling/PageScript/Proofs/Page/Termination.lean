import PageScript.Proofs.Page.Tale
import PageScript.Proofs.Plugin.Map

/-!
Each step of a rendering inwards leaves fewer files or fewer names to go on to (`Renderer.room`), so that
rendering fails only where something in it fails by itself (`Renderer.render_ends`).
-/

open List

namespace PageScript

open Nat

variable {tree : Tree} {plugin : Plugin} {failure : Failure}

namespace SnippetSearch

theorem mem_candidates {places : List Path} {file : Path} (member : file ∈ candidates tree places) :
    ∃ path, tree.isFile path = true ∧ file = tree.canonical path := by
  revert file
  unfold candidates
  refine List.foldlRecOn _ _ (motive := fun found => ∀ {file : Path}, file ∈ found →
    ∃ path, tree.isFile path = true ∧ file = tree.canonical path) ?_ ?_
  · intro file member
    cases member
  · intro found known place listed file member
    dsimp only at member
    split at member
    · exact known member
    · rcases mem_append.mp member with old | new
      · exact known old
      · exact ⟨place, (mem_filter.mp listed).2, mem_singleton.mp new⟩

private theorem file_eq_ok {plugins : PluginMap} {around file : Path}
    {name : String} (found : SnippetSearch.file tree plugins plugin around name = .ok file) :
    ∃ place ∈ tree.filePlaces, file = Tree.pathOf place ∧ tree.canonical file = Tree.pathOf place := by
  have member : file ∈ candidates tree (places tree plugins plugin around name) := by
    unfold SnippetSearch.file at found
    split at found
    · rename_i only
      cases found
      rw [only]
      exact mem_cons_self
    · cases found
    · cases found
  obtain ⟨path, isFile, rfl⟩ := mem_candidates member
  obtain ⟨place, within, located⟩ := Tree.locate_of_isFile isFile
  obtain ⟨known, again⟩ := Tree.canonical_pathOf located
  exact ⟨place, within, known, by rw [known, again]⟩

end SnippetSearch

theorem Plugin.entry_load {registry : HookRegistry} {entry : PluginEntry}
    (loaded : Plugin.load tree registry entry = .ok plugin) :
    plugin.entry = entry := by
  unfold Plugin.load at loaded
  dsimp only at loaded
  split at loaded
  · cases loaded
  · obtain ⟨config, _, loaded⟩ := bind_eq_ok.mp loaded
    obtain ⟨_, _, done⟩ := bind_eq_ok.mp loaded
    cases done
    rfl

theorem Tree.decode_ne_endless {α : Type} (path : Path) (format : Format) (decode : Decoder α) :
    tree.decode path format decode ≠ .error .endless := by
  intro failed
  rcases bind_eq_error.mp failed with unread | ⟨text, _, failed⟩
  · obtain ⟨_, _, other⟩ := mapError_eq_error.mp unread
    cases other
  · split at failed
    · cases failed
    · cases format <;> cases failed

theorem Plugin.load_ne_endless (registry : HookRegistry) (entry : PluginEntry) :
    Plugin.load tree registry entry ≠ .error .endless := by
  intro failed
  unfold Plugin.load at failed
  dsimp only at failed
  split at failed
  · cases failed
  · rcases bind_eq_error.mp failed with unread | ⟨config, _, failed⟩
    · exact Tree.decode_ne_endless _ _ _ unread
    · rcases bind_eq_error.mp failed with unsupported | ⟨_, _, done⟩
      · unfold CacheMode.ensureSupported at unsupported
        split at unsupported <;> cases unsupported
      · cases done

theorem Rendering.bind_eq_error {α β : Type} {first : Rendering α} {next : α → Rendering β}
    {state : RenderState} : (first >>= next) state = .error failure ↔ first state = .error failure ∨
      ∃ value middle, first state = .ok (value, middle) ∧ next value middle = .error failure := by
  change (first state >>= fun pair => next pair.1 pair.2) = .error failure ↔ _
  rw [PageScript.bind_eq_error, Prod.exists]

namespace Renderer

/-- Where a page begins. -/
def rootLead (plugin : Plugin) : Landing :=
  .ofPlugin plugin { target := plugin.name } none [] []

/-- How many files and plugins are left to go on to from inside some files and plugins. -/
def room (renderer : Renderer) (places : List Location) (files : List Path) (names : List String) :
    Nat :=
  places.countP (fun place => ! files.any (·.same (Tree.pathOf place))) +
    (Keyed.keys renderer.plugins.plugins).countP (! names.contains ·)

def roomIn (renderer : Renderer) (state : RenderState) (visit : Visit) : Nat :=
  renderer.room state.tree.filePlaces (visit.files ++ [state.tree.canonical visit.file]) visit.names

variable {renderer : Renderer} {places : List Location} {files : List Path} {names : List String}

private theorem room_file_le (file : Path) :
    renderer.room places (files ++ [file]) names ≤ renderer.room places files names := by
  refine Nat.add_le_add_right (countP_mono_left ?_) _
  intro place _ left
  rw [any_append, Bool.not_or, Bool.and_eq_true] at left
  exact left.1

private theorem room_file_lt {place : Location} (within : place ∈ places)
    (fresh : ¬ files.any (·.same (Tree.pathOf place)) = true) :
    renderer.room places (files ++ [Tree.pathOf place]) names < renderer.room places files names := by
  refine Nat.add_lt_add_right (countP_lt ?_ within ?_ ?_) _
  · intro other left
    rw [any_append, Bool.not_or, Bool.and_eq_true] at left
    exact left.1
  · simp [Path.same]
  · simpa using fresh

private theorem room_name_lt {name : String} (within : name ∈ Keyed.keys renderer.plugins.plugins)
    (fresh : ¬ names.contains name = true) :
    renderer.room places files (names ++ [name]) < renderer.room places files names := by
  refine Nat.add_lt_add_left (countP_lt ?_ within ?_ ?_) _
  · intro other left
    rw [contains_append, Bool.not_or, Bool.and_eq_true] at left
    exact left.1
  · simp
  · simpa using fresh

theorem room_le (renderer : Renderer) (tree : Tree) (files : List Path) (names : List String) :
    renderer.room tree.filePlaces files names ≤
      tree.entries.length + renderer.plugins.plugins.length := by
  refine Nat.add_le_add (Nat.le_trans countP_le_length tree.length_filePlaces_le) ?_
  refine Nat.le_trans countP_le_length ?_
  rw [Keyed.keys, length_map]

/-- A snippet is visited while a page is rendered from an entry: in this state, and with fuel for what is
inside of it. -/
inductive Reaches (renderer : Renderer) (tree : Tree) (entry : PluginEntry) :
    Nat → Visit → RenderState → Prop
  | root {plugin : Plugin} {key : String} {state : RenderState}
      (loaded : Plugin.load tree renderer.hooks entry = .ok plugin)
      (claimed : ((rootLead plugin).begun { tree }).claimKey (rootLead plugin).requested =
        (some key, state)) :
      Reaches renderer tree entry (renderer.fuel tree) ((rootLead plugin).child key) state
  | inside {fuel : Nat} {visit : Visit} {before middle state after : RenderState} {result : SnippetResult}
      {js : Text} {assets : List Asset} {settlements : List Settlement} {log : List Begun}
      {accounts : List Account} {pointer : Pointer} {rest : List Pointer} {lead : Landing} {key : String}
      (reached : Reaches renderer tree entry (fuel + 1) visit before)
      (runs : Runs renderer (visit.entered before.tree) before (some (result, js)) assets middle)
      (settles : Settles renderer (renderer.renderSnippet fuel) (renderer.Told fuel)
        (visit.entered before.tree) (addSnippet (visit.entered before.tree) result js middle)
        settlements state log accounts)
      (pointers : result.pointers = settlements.map Settlement.pointer ++ pointer :: rest)
      (leads : renderer.lead (visit.entered before.tree) state.tree pointer = .ok lead)
      (claimed : (lead.begun state).claimKey lead.requested = (some key, after)) :
      Reaches renderer tree entry fuel (lead.child key) after

/-- The ways in which a rendering fails by itself: the plugin cannot be loaded, the scripts of a snippet
fail, or the root snippet is skipped. -/
inductive Fails (renderer : Renderer) (tree : Tree) (entry : PluginEntry) : Failure → Prop
  | load {failure : Failure} (unloaded : Plugin.load tree renderer.hooks entry = .error failure) :
      Fails renderer tree entry failure
  | script {failure : Failure} {fuel : Nat} {visit : Visit} {state : RenderState}
      (reached : Reaches renderer tree entry fuel visit state)
      (failed : renderer.runScripts (visit.entered state.tree) state = .error failure) :
      Fails renderer tree entry failure
  | root {plugin : Plugin} {state : RenderState}
      (loaded : Plugin.load tree renderer.hooks entry = .ok plugin)
      (skipped : enter (renderer.renderSnippet (renderer.fuel tree)) (rootLead plugin) { tree } =
        .ok (none, state)) :
      Fails renderer tree entry
        (.unresolved s!"root snippet of plugin {plugin.name} failed to render")

variable {fuel : Nat} {visit : Visit} {state before after : RenderState} {entry : PluginEntry} {lead : Landing}
  {inner : Visit → Rendering Bool} {key : String}

theorem claimKey_tree (claimed : (lead.begun state).claimKey lead.requested = (some key, after)) :
    after.tree = state.tree := by
  rcases claimKey_cases claimed with ⟨_, _, _, other, _⟩ | ⟨_, _, _, _, _, rfl⟩
  · cases other
  · obtain ⟨_ | owner, _, _, _, _, _⟩ := lead <;> rfl

/-- Where a reference leads there is less room. -/
theorem room_lead (named : renderer.plugins.Named) {pointer : Pointer}
    (leads : renderer.lead visit tree pointer = .ok lead) (key : String) :
    renderer.room tree.filePlaces ((lead.child key).files ++ [tree.canonical (lead.child key).file])
        (lead.child key).names <
      renderer.room tree.filePlaces visit.files visit.names := by
  cases pointer with
  | snippet element reference =>
    rw [Renderer.lead] at leads
    split at leads
    · cases leads
    · split at leads
      · cases leads
      · rename_i file found
        split at leads
        · cases leads
        · rename_i around
          cases leads
          obtain ⟨place, within, known, again⟩ := SnippetSearch.file_eq_ok found
          dsimp only
          rw [again]
          exact room_file_lt within (known ▸ around)
  | plugin reference =>
    rw [Renderer.lead] at leads
    split at leads
    · cases leads
    · rename_i around
      split at leads
      · cases leads
      · rename_i entry found
        split at leads
        · cases leads
        · rename_i plugin loaded
          cases leads
          obtain ⟨name, within⟩ := named.get?_eq_some found
          have own : plugin.name = reference.target := by
            rw [Plugin.name, Plugin.entry_load loaded, name]
          refine Nat.lt_of_le_of_lt (room_file_le _) ?_
          dsimp only [Landing.ofPlugin]
          rw [own]
          exact room_name_lt within around

theorem Reaches.roomIn_lt (named : renderer.plugins.Named)
    (reaches : Reaches renderer tree entry fuel visit state) : renderer.roomIn state visit < fuel := by
  induction reaches with
  | root loaded claimed =>
    unfold roomIn
    rw [claimKey_tree claimed]
    refine Nat.lt_of_le_of_lt (renderer.room_le tree _ _) ?_
    unfold Renderer.fuel
    omega
  | @inside _ _ _ _ _ _ _ _ _ _ _ _ _ _ _ key reached runs settles pointers leads claimed ih =>
    obtain ⟨_, tale, _⟩ := settles.tale (renderer.told_recites _)
    have files := tale.logs.files.trans runs.passes.1.files
    have less := room_lead named leads key
    unfold roomIn at ih ⊢
    rw [claimKey_tree claimed]
    rw [files] at less
    rw [files]
    exact Nat.lt_of_lt_of_le less (le_of_lt_succ ih)

/-! ### Failures come from inside -/

private theorem enter_eq_error : enter inner lead before = .error failure ↔
    ∃ key after, (lead.begun before).claimKey lead.requested = (some key, after) ∧
      inner (lead.child key) after = .error failure := by
  rw [enter, Rendering.modify_bind, claimKey_bind]
  cases claimed : (lead.begun before).claimKey lead.requested with
  | mk answer after =>
    cases answer with
    | none =>
      constructor
      · intro failed
        cases failed
      · rintro ⟨_, _, ⟨⟩, _⟩
    | some key =>
      rw [Rendering.bind_eq_error]
      constructor
      · rintro (failed | ⟨_, _, _, done⟩)
        · exact ⟨key, after, rfl, failed⟩
        · cases done
      · rintro ⟨_, _, ⟨⟩, failed⟩
        exact .inl failed

theorem follow_eq_error {pointer : Pointer} : renderer.follow inner visit pointer before = .error failure ↔
    ∃ lead, renderer.lead visit before.tree pointer = .ok lead ∧
      enter inner lead before = .error failure := by
  rw [follow_apply]
  cases renderer.lead visit before.tree pointer with
  | error message =>
    constructor
    · intro failed
      cases failed
    · rintro ⟨_, ⟨⟩, _⟩
  | ok lead =>
    constructor
    · intro failed
      exact ⟨lead, rfl, failed⟩
    · rintro ⟨_, ⟨⟩, failed⟩
      exact failed

theorem followAll_eq_error {told : Telling} (tells : Tells inner told) {pointers : List Pointer}
    (failed : renderer.followAll inner visit pointers before = .error failure) :
    ∃ settlements pointer rest state log accounts,
      Settles renderer inner told visit before settlements state log accounts ∧
      pointers = settlements.map Settlement.pointer ++ pointer :: rest ∧
      renderer.follow inner visit pointer state = .error failure := by
  induction pointers generalizing before with
  | nil => cases failed
  | cons pointer rest ih =>
    rcases Rendering.bind_eq_error.mp failed with here | ⟨key, middle, followed, failed⟩
    · exact ⟨[], pointer, rest, before, [], [], .nil before, rfl, here⟩
    rcases Rendering.bind_eq_error.mp failed with later | ⟨_, _, _, done⟩
    · obtain ⟨log, accounts, follows⟩ := follow_follows tells followed
      obtain ⟨settlements, other, others, state, more, further, settles, rfl, stuck⟩ := ih later
      exact ⟨_, other, others, state, _, _, .cons ⟨pointer, key, before, middle⟩ followed follows settles,
        rfl, stuck⟩
    · cases done

theorem Settles.followAll_eq_error {told : Telling} {settlements : List Settlement} {log : List Begun}
    {accounts : List Account} {pointer : Pointer} {rest : List Pointer}
    (settles : Settles renderer inner told visit before settlements state log accounts)
    (failed : renderer.follow inner visit pointer state = .error failure) :
    renderer.followAll inner visit (settlements.map Settlement.pointer ++ pointer :: rest) before =
      .error failure := by
  induction settles with
  | nil state => exact Rendering.bind_eq_error.mpr (.inl failed)
  | cons settlement followed follows settles ih =>
    refine Rendering.bind_eq_error.mpr (.inr ⟨_, _, followed, ?_⟩)
    exact Rendering.bind_eq_error.mpr (.inl (ih failed))

private theorem renderVisit_eq_error : renderer.renderVisit inner visit before = .error failure ↔
    renderer.runScripts (visit.entered before.tree) before = .error failure ∨
    ∃ result js middle,
      renderer.runScripts (visit.entered before.tree) before = .ok (some (result, js), middle) ∧
      renderer.followAll inner (visit.entered before.tree) result.pointers
        (addSnippet (visit.entered before.tree) result js middle) = .error failure := by
  rw [renderVisit, Rendering.get_bind, Rendering.bind_eq_error]
  refine or_congr_right ⟨?_, ?_⟩
  · rintro ⟨_ | ⟨result, js⟩, middle, ran, failed⟩
    · cases failed
    refine ⟨result, js, middle, ran, ?_⟩
    rcases Rendering.bind_eq_error.mp failed with inside | ⟨_, _, _, done⟩
    · rw [renderInside_eq, Rendering.modify_bind] at inside
      rcases Rendering.bind_eq_error.mp inside with followed | ⟨_, _, _, done⟩
      · exact followed
      · cases done
    · cases done
  · rintro ⟨result, js, middle, ran, failed⟩
    refine ⟨_, _, ran, Rendering.bind_eq_error.mpr (.inl ?_)⟩
    rw [renderInside_eq, Rendering.modify_bind]
    exact Rendering.bind_eq_error.mpr (.inl failed)

private theorem assemble_ne_error (plugin : Plugin) (root : String) :
    renderer.assemble plugin root before ≠ .error failure := by
  intro failed
  rcases Rendering.bind_eq_error.mp failed with linked | ⟨_, _, _, done⟩
  · cases icon : plugin.config.page.icon with
    | none =>
      rw [icon] at linked
      cases linked
    | some path =>
      rw [icon] at linked
      replace linked := Rendering.of_get linked
      cases link : renderer.linker.link before.tree (plugin.assetPath path) with
      | mk outcome tree =>
        rw [link] at linked
        cases outcome <;> cases linked
  · cases done

/-- A page is not rendered just if the root snippet is not. -/
theorem render_eq_error : renderer.render tree entry = .error failure ↔
    Plugin.load tree renderer.hooks entry = .error failure ∨
    ∃ plugin, Plugin.load tree renderer.hooks entry = .ok plugin ∧
      (enter (renderer.renderSnippet (renderer.fuel tree)) (rootLead plugin) { tree } = .error failure ∨
        ∃ state, enter (renderer.renderSnippet (renderer.fuel tree)) (rootLead plugin) { tree } =
          .ok (none, state) ∧
          failure = .unresolved s!"root snippet of plugin {plugin.name} failed to render") := by
  rw [render, PageScript.bind_eq_error]
  refine or_congr_right (exists_congr fun plugin => and_congr_right fun _ => ?_)
  have begun : (renderer.renderLoaded plugin).run { tree } = renderer.renderLoaded plugin { tree } := rfl
  rw [PageScript.bind_eq_error, begun, renderLoaded, Rendering.get_bind, Rendering.bind_eq_error,
    renderPlugin_eq, ← rootLead]
  constructor
  · rintro ((failed | ⟨_ | root, state, done, failed⟩) | ⟨_, _, done⟩)
    · exact .inl failed
    · cases failed
      exact .inr ⟨state, done, rfl⟩
    · exact absurd failed (assemble_ne_error plugin root)
    · cases done
  · rintro (failed | ⟨state, done, rfl⟩)
    · exact .inl (.inl failed)
    · exact .inl (.inr ⟨none, state, done, rfl⟩)

theorem Reaches.fails (named : renderer.plugins.Named)
    (reaches : Reaches renderer tree entry fuel visit state)
    (failed : renderer.renderSnippet fuel visit state = .error failure) :
    Fails renderer tree entry failure := by
  induction fuel generalizing visit state with
  | zero => exact absurd (reaches.roomIn_lt named) (Nat.not_lt_zero _)
  | succ fuel ih =>
    rcases renderVisit_eq_error.mp failed with stuck | ⟨result, js, middle, ran, failed⟩
    · exact .script reaches stuck
    obtain ⟨⟨assets, runs⟩, _⟩ := runScripts_runs ran
    obtain ⟨settlements, pointer, rest, later, log, accounts, settles, pointers, failed⟩ :=
      followAll_eq_error (renderer.renderSnippet_told fuel) failed
    obtain ⟨lead, leads, failed⟩ := follow_eq_error.mp failed
    obtain ⟨key, after, claimed, failed⟩ := enter_eq_error.mp failed
    exact ih (.inside reaches runs settles pointers leads claimed) failed

theorem Reaches.render_eq_error (reaches : Reaches renderer tree entry fuel visit state)
    (failed : renderer.renderSnippet fuel visit state = .error failure) :
    renderer.render tree entry = .error failure := by
  induction reaches with
  | root loaded claimed =>
    exact Renderer.render_eq_error.mpr
      (.inr ⟨_, loaded, .inl (enter_eq_error.mpr ⟨_, _, claimed, failed⟩)⟩)
  | inside reached runs settles pointers leads claimed ih =>
    refine ih (renderVisit_eq_error.mpr (.inr ⟨_, _, _, runs.ran, ?_⟩))
    rw [pointers]
    refine settles.followAll_eq_error (follow_eq_error.mpr ⟨_, leads, ?_⟩)
    exact enter_eq_error.mpr ⟨_, _, claimed, failed⟩

/-- Rendering a page ends, unless the scripts of a snippet do not. However snippets and plugins refer to
each other, also in circles, and whatever scripts hand back, the fuel does not run out: a page is not
rendered just if the plugin cannot be loaded, the root snippet is skipped, or compiling or executing the
scripts of a snippet that is reached fails. A rendering does not end just if the scripts of such a snippet
do not, as where a file is forced into itself. -/
theorem render_ends (renderer : Renderer) (named : renderer.plugins.Named) (tree : Tree)
    (entry : PluginEntry) :
    (∀ failure, renderer.render tree entry = .error failure ↔ Fails renderer tree entry failure) ∧
      (renderer.render tree entry = .error .endless ↔ ∃ fuel visit state,
        Reaches renderer tree entry fuel visit state ∧
        renderer.runScripts (visit.entered state.tree) state = .error .endless) := by
  have fails (failure : Failure) :
      renderer.render tree entry = .error failure ↔ Fails renderer tree entry failure := by
    constructor
    · intro failed
      rcases render_eq_error.mp failed with unloaded | ⟨plugin, loaded, failed | ⟨state, skipped, rfl⟩⟩
      · exact .load unloaded
      · obtain ⟨key, state, claimed, failed⟩ := enter_eq_error.mp failed
        exact Reaches.fails named (.root loaded claimed) failed
      · exact .root loaded skipped
    · intro fails
      cases fails with
      | load unloaded => exact render_eq_error.mpr (.inl unloaded)
      | @script _ fuel visit state reached failed =>
        obtain ⟨fuel, rfl⟩ := exists_eq_succ_of_ne_zero
          (Nat.ne_of_gt (zero_lt_of_lt (reached.roomIn_lt named)))
        exact reached.render_eq_error (renderVisit_eq_error.mpr (.inl failed))
      | root loaded skipped => exact render_eq_error.mpr (.inr ⟨_, loaded, .inr ⟨_, skipped, rfl⟩⟩)
  refine ⟨fails, (fails .endless).trans ⟨?_, ?_⟩⟩
  · intro fails
    cases fails with
    | load unloaded => exact absurd unloaded (Plugin.load_ne_endless _ _)
    | script reached failed => exact ⟨_, _, _, reached, failed⟩
  · rintro ⟨_, _, _, reached, failed⟩
    exact .script reached failed

def mirrorConfig (other : String) : Text :=
  ("\x7b\"server\": \x7b\"snippetsMap\": \x7b\"mirror\": \x7b\"plugin\": \"" ++ other ++
    "\", \"path\": \"snippets/_root.js\"\x7d\x7d\x7d\x7d").toList

def mirrorTree : Tree where
  entries := [
    (["left"], .folder), (["left", "lx-config.json"], .file (mirrorConfig "right")),
    (["left", "snippets"], .folder), (["left", "snippets", "_root.js"], .file []),
    (["right"], .folder), (["right", "lx-config.json"], .file (mirrorConfig "left")),
    (["right", "snippets"], .folder), (["right", "snippets", "_root.js"], .file [])]
  home := []

def mirrorRenderer : Renderer where
  compiler := { modules := { root := ⟨"/"⟩, modules := [] }, widgets := .empty }
  plugins := (PluginMap.insert { root := ⟨"/"⟩ } { name := "left", path := "left" }).insert
    { name := "right", path := "right" }
  execute := fun _ _ _ =>
    let element : Data := .record [("snippet", .record [("path", .text "mirror")])]
    .ok { result := .record [("lxElements", .list [element]),
      ("subPlugins", .list [.record [("name", .text "left")], .record [("name", .text "right")]])] }
  linker := { publicRoot := "/", internalRoot := ⟨"/"⟩ }

theorem render_ends_mirror :
    mirrorRenderer.plugins.Named ∧
    (mirrorRenderer.render mirrorTree { name := "left", path := "/left" }).toOption.map
        (fun answer => (answer.1.snippets.map Snippet.parent, answer.1.diagnostics.length)) =
      some ([none, some "lx-1", some "lx-2", some "lx-1"], 9) ∧
    ¬ ∃ fuel visit state,
      Reaches mirrorRenderer mirrorTree { name := "left", path := "/left" } fuel visit state ∧
      mirrorRenderer.runScripts (visit.entered state.tree) state = .error .endless := by
  have named : mirrorRenderer.plugins.Named := ((PluginMap.named_blank ⟨"/"⟩).insert _).insert _
  have page : (mirrorRenderer.render mirrorTree { name := "left", path := "/left" }).toOption.map
        (fun answer => (answer.1.snippets.map Snippet.parent, answer.1.diagnostics.length)) =
      some ([none, some "lx-1", some "lx-2", some "lx-1"], 9) := by
    decide +kernel
  obtain ⟨_, endless⟩ := render_ends mirrorRenderer named mirrorTree { name := "left", path := "/left" }
  refine ⟨named, page, fun reached => ?_⟩
  rw [endless.mpr reached] at page
  cases page

end Renderer

end PageScript
