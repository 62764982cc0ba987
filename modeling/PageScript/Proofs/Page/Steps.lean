import PageScript.Page.Renderer
import PageScript.Proofs.Asset
import PageScript.Proofs.Outcome
import PageScript.Proofs.Tree.Files

/-!
What the steps of a rendering do: the scripts of a snippet (`Renderer.Runs`), and the references in it,
each of which leads to a snippet or is refused (`Renderer.follow_apply`).
-/

open List

namespace PageScript

variable {first second third before middle after : RenderState} {visit : Visit} {file : Path}
  {inner : Visit → Rendering Bool} {renderer : Renderer} {plugin : Plugin}

namespace RenderState

private theorem numbered_inj {first second : Nat} (same : numbered first = numbered second) :
    first = second := by
  have digits : Nat.toDigits 10 first = Nat.toDigits 10 second := by
    simpa [numbered, Nat.repr_eq_ofList_toDigits, String.ofList_inj] using same
  rw [← @Nat.ofDigitChars_ten_toDigits first, digits, Nat.ofDigitChars_ten_toDigits]

theorem numbered_freeNumber (state : RenderState) : numbered state.freeNumber ∉ state.keys := by
  unfold freeNumber
  dsimp only
  generalize numbersAre : (List.range (state.keys.length + 1)).map (state.lastNumber + 1 + ·) = numbers
  cases found : numbers.find? fun number => ! state.keys.contains (numbered number) with
  | some number =>
    have free := find?_some found
    simpa using free
  | none =>
    have distinct : (numbers.map numbered).Nodup := by
      rw [← numbersAre, map_map]
      refine List.Nodup.map ?_ nodup_range
      intro first second same
      have equal := numbered_inj same
      dsimp only at equal
      omega
    have taken : numbers.map numbered ⊆ state.keys := by
      intro key member
      obtain ⟨number, within, rfl⟩ := mem_map.mp member
      have held := find?_eq_none.mp found number within
      simpa using held
    have fits := distinct.length_le_of_subset taken
    rw [← numbersAre, length_map, length_map, length_range] at fits
    omega

/-- At least one diagnostic was added, and nothing was taken back. -/
def Noted (before after : RenderState) : Prop :=
  ∃ noted, noted ≠ [] ∧ after.diagnostics = before.diagnostics ++ noted

theorem report_noted (state : RenderState) (topic : Topic) (file : Option Path) (message : String) :
    state.Noted (state.report topic file message) :=
  ⟨_, cons_ne_nil _ _, rfl⟩

theorem Noted.grows (noted : before.Noted after) :
    before.diagnostics <+: after.diagnostics := by
  obtain ⟨more, _, whole⟩ := noted
  exact ⟨more, whole.symm⟩

/-- Nothing was taken or rendered meanwhile. Assets were collected, and diagnostics were added at most. -/
structure Passes (collected : List Asset) (before after : RenderState) : Prop where
  keys : after.keys = before.keys
  snippets : after.snippets = before.snippets
  payload : after.payload = before.payload
  assets : after.assets = before.assets.addAll collected
  files : after.tree.filePlaces = before.tree.filePlaces
  diagnostics : before.diagnostics <+: after.diagnostics

theorem report_passes (state : RenderState) (topic : Topic) (file : Option Path) (message : String) :
    Passes [] state (state.report topic file message) :=
  ⟨rfl, rfl, rfl, rfl, rfl, (state.report_noted topic file message).grows⟩

theorem Passes.trans {left right : List Asset} (begun : Passes left first second)
    (ended : Passes right second third) : Passes (left ++ right) first third := by
  refine ⟨ended.keys.trans begun.keys, ended.snippets.trans begun.snippets,
    ended.payload.trans begun.payload, ?_, ended.files.trans begun.files,
    begun.diagnostics.trans ended.diagnostics⟩
  rw [ended.assets, begun.assets, AssetSet.addAll_append]

/-- The last diagnostic was added meanwhile, and it names a file. -/
def Refuses (before after : RenderState) : Prop :=
  ∃ noted last, after.diagnostics = before.diagnostics ++ (noted ++ [last]) ∧ last.file.isSome = true

theorem Refuses.noted (refuses : before.Refuses after) : before.Noted after := by
  obtain ⟨noted, last, added, _⟩ := refuses
  exact ⟨noted ++ [last], append_ne_nil_of_right_ne_nil noted (cons_ne_nil last []), added⟩

theorem Refuses.later (grown : first.diagnostics <+: second.diagnostics)
    (refuses : second.Refuses third) : first.Refuses third := by
  obtain ⟨early, same⟩ := grown
  obtain ⟨noted, last, added, named⟩ := refuses
  refine ⟨early ++ noted, last, ?_, named⟩
  rw [added, ← same, append_assoc, append_assoc]

end RenderState

open RenderState (Passes)

namespace Rendering

variable {α β : Type}

theorem bind_eq_ok {first : Rendering α} {next : α → Rendering β} {result : β} :
    (first >>= next) before = .ok (result, after) ↔
      ∃ value middle, first before = .ok (value, middle) ∧
        next value middle = .ok (result, after) := by
  change (first before >>= fun pair => next pair.1 pair.2) = .ok (result, after) ↔ _
  rw [PageScript.bind_eq_ok, Prod.exists]

theorem of_get {next : RenderState → Rendering β} {answer : Except Failure (β × RenderState)}
    (done : (get >>= next) before = answer) : next before before = answer :=
  done

theorem modify_bind (change : RenderState → RenderState) (next : Unit → Rendering β)
    (state : RenderState) : (modify change >>= next) state = next () (change state) :=
  rfl

theorem get_bind (next : RenderState → Rendering β) (state : RenderState) :
    (get >>= next) state = next state state :=
  rfl

end Rendering

namespace Renderer

def serverAssets (renderer : Renderer) (tree : Tree) (plugin : Plugin) (file : Path) : List Asset :=
  match (renderer.serverJob tree plugin file).compile tree renderer.compiler with
  | (.ok _, job) => job.progress.assets.items
  | (.error _, _) => []

def clientAssets (renderer : Renderer) (tree : Tree) (plugin : Plugin) (file : Path) (source : Text) :
    List Asset :=
  match Directive.clientBodies source with
  | [] => []
  | blocks =>
      match (renderer.clientJob tree plugin file blocks).compile tree renderer.compiler with
      | (.ok _, job) => job.progress.assets.items
      | (.error _, _) => []

private theorem refuse_eq_ok {α : Type} {topic : Topic} {message : String} {value result : α}
    (done : (report topic (some file) message >>= fun _ => pure value) before = .ok (result, after)) :
    result = value ∧ Passes [] before after ∧ before.Refuses after := by
  cases done
  exact ⟨rfl, before.report_passes _ _ _, [], _, rfl, rfl⟩

theorem linkNamed_passes {named found : Option String}
    (done : renderer.linkNamed plugin named before = .ok (found, after)) : Passes [] before after := by
  cases named with
  | none =>
    cases done
    exact ⟨rfl, rfl, rfl, rfl, rfl, prefix_refl _⟩
  | some path =>
    replace done := Rendering.of_get done
    have files := renderer.linker.filePlaces_link before.tree (plugin.assetPath path)
    cases linked : renderer.linker.link before.tree (plugin.assetPath path) with
    | mk outcome tree =>
      rw [linked] at done files
      cases outcome with
      | ok found =>
        cases done
        exact ⟨rfl, rfl, rfl, rfl, files, prefix_refl _⟩
      | error failure =>
        cases done
        exact ⟨rfl, rfl, rfl, rfl, files, prefix_append _ _⟩

private theorem serverScript_passes {script : Option Text}
    (done : renderer.serverScript plugin file before = .ok (script, after)) :
    Passes (renderer.serverAssets before.tree plugin file) before after ∧
      (script = none → before.Refuses after) := by
  replace done := Rendering.of_get done
  unfold serverAssets
  cases compiled : (renderer.serverJob before.tree plugin file).compile before.tree renderer.compiler with
  | mk outcome job =>
    rw [compiled] at done
    cases outcome with
    | ok script =>
      cases done
      exact ⟨⟨rfl, rfl, rfl, rfl, rfl, prefix_append _ _⟩, fun refused => by cases refused⟩
    | error failure =>
      cases failure with
      | endless => cases done
      | _ =>
        cases done
        refine ⟨⟨rfl, rfl, rfl, rfl, rfl, ?_⟩, fun _ => ⟨_, _, append_assoc _ _ _, rfl⟩⟩
        exact (prefix_append _ _).trans (prefix_append _ _)

private theorem clientScript_passes {source script : Text}
    (done : renderer.clientScript plugin file source before = .ok (script, after)) :
    Passes (renderer.clientAssets before.tree plugin file source) before after := by
  unfold clientScript at done
  unfold clientAssets
  cases bodies : Directive.clientBodies source with
  | nil =>
    rw [bodies] at done
    cases done
    exact ⟨rfl, rfl, rfl, rfl, rfl, prefix_refl _⟩
  | cons first rest =>
    rw [bodies] at done
    replace done := Rendering.of_get done
    dsimp only
    cases compiled : (renderer.clientJob before.tree plugin file (first :: rest)).compile before.tree
        renderer.compiler with
    | mk outcome job =>
      rw [compiled] at done
      cases outcome with
      | ok script =>
        cases done
        exact ⟨rfl, rfl, rfl, rfl, rfl, prefix_append _ _⟩
      | error failure =>
        cases failure with
        | endless => cases done
        | _ =>
          cases done
          exact ⟨rfl, rfl, rfl, rfl, rfl, (prefix_append _ _).trans (prefix_append _ _)⟩

private theorem runScript_passes {script : Text} {result : Option SnippetResult}
    (done : renderer.runScript visit script before = .ok (result, after)) :
    Passes [] before after ∧ (result = none → before.Refuses after) := by
  obtain ⟨images, middle, linked, done⟩ := Rendering.bind_eq_ok.mp done
  replace done := Rendering.of_get done
  obtain ⟨execution, _, executed, done⟩ := Rendering.bind_eq_ok.mp done
  have passes := linkNamed_passes linked
  cases outcome : renderer.execute middle.tree script (seed visit images) with
  | error failure =>
    rw [outcome] at executed
    cases executed
  | ok answer =>
    rw [outcome] at executed
    cases executed
    have refused (refusal : Passes [] middle after ∧ middle.Refuses after) :
        Passes [] before after ∧ (result = none → before.Refuses after) :=
      ⟨passes.trans refusal.1, fun _ => refusal.2.later passes.diagnostics⟩
    cases fatal : execution.fatal with
    | some thrown =>
      rw [fatal] at done
      exact refused (refuse_eq_ok done).2
    | none =>
      rw [fatal] at done
      dsimp only at done
      cases decoded : SnippetResult.ofData? execution.result with
      | some result =>
        rw [decoded] at done
        cases done
        exact ⟨passes, fun refused => by cases refused⟩
      | none =>
        rw [decoded] at done
        exact refused (refuse_eq_ok done).2

/-- The scripts of a snippet were run. These assets were collected: from the script for the server and, if
the snippet is not skipped, from its client blocks. -/
inductive Runs (renderer : Renderer) (visit : Visit) (before : RenderState) :
    Option (SnippetResult × Text) → List Asset → RenderState → Prop
  | skipped {after : RenderState} (skips : renderer.runScripts visit before = .ok (none, after)) :
      Runs renderer visit before none (renderer.serverAssets before.tree visit.plugin visit.file) after
  | handed {source script client : Text} {result : SnippetResult} {first second after : RenderState}
      (read : before.tree.readSource visit.file = .ok source)
      (served : renderer.serverScript visit.plugin visit.file before = .ok (some script, first))
      (ran : renderer.runScript visit script first = .ok (some result, second))
      (prepared : renderer.clientScript visit.plugin visit.file source second = .ok (client, after)) :
      Runs renderer visit before (some (result, joinScripts [client, (result.js.getD "").toList]))
        (renderer.serverAssets before.tree visit.plugin visit.file ++
          renderer.clientAssets second.tree visit.plugin visit.file source) after

private theorem serverAssets_of_unreadable {tree : Tree} {failure : Failure}
    (unreadable : tree.readSource file = .error failure) :
    renderer.serverAssets tree plugin file = [] := by
  have source : (renderer.serverJob tree plugin file).settings.source tree = .error failure := unreadable
  unfold serverAssets Job.compile
  rw [source]

theorem runScripts_runs {answer : Option (SnippetResult × Text)}
    (done : renderer.runScripts visit before = .ok (answer, after)) :
    (∃ assets, Runs renderer visit before answer assets after) ∧
      (answer = none → Passes (renderer.serverAssets before.tree visit.plugin visit.file) before after ∧
        before.Refuses after) := by
  have whole := done
  replace done := Rendering.of_get done
  cases read : before.tree.readSource visit.file with
  | error failure =>
    rw [read] at done
    obtain ⟨rfl, refused⟩ := refuse_eq_ok done
    rw [serverAssets_of_unreadable read]
    exact ⟨⟨_, .skipped whole⟩, fun _ => refused⟩
  | ok source =>
    rw [read] at done
    obtain ⟨script, first, served, done⟩ := Rendering.bind_eq_ok.mp done
    obtain ⟨compiled, unserved⟩ := serverScript_passes served
    cases script with
    | none =>
      cases done
      exact ⟨⟨_, .skipped whole⟩, fun _ => ⟨compiled, unserved rfl⟩⟩
    | some script =>
      obtain ⟨result, second, ran, done⟩ := Rendering.bind_eq_ok.mp done
      obtain ⟨executed, refused⟩ := runScript_passes ran
      cases result with
      | none =>
        cases done
        refine ⟨⟨_, .skipped whole⟩, fun _ => ⟨?_, (refused rfl).later compiled.diagnostics⟩⟩
        exact append_nil (renderer.serverAssets _ _ _) ▸ compiled.trans executed
      | some result =>
        obtain ⟨client, third, prepared, answered⟩ := Rendering.bind_eq_ok.mp done
        cases answered
        exact ⟨⟨_, .handed read served ran prepared⟩, fun refused => by cases refused⟩

theorem Runs.passes {answer : Option (SnippetResult × Text)} {assets : List Asset}
    (runs : Runs renderer visit before answer assets after) :
    Passes assets before after ∧ (answer = none → before.Refuses after) := by
  cases runs with
  | skipped skips =>
    obtain ⟨passes, refuses⟩ := (runScripts_runs skips).2 rfl
    exact ⟨passes, fun _ => refuses⟩
  | handed read served ran prepared =>
    have later := (runScript_passes ran).1.trans (clientScript_passes prepared)
    rw [nil_append] at later
    exact ⟨(serverScript_passes served).1.trans later, fun refused => by cases refused⟩

theorem Runs.ran {answer : Option (SnippetResult × Text)} {assets : List Asset}
    (runs : Runs renderer visit before answer assets after) :
    renderer.runScripts visit before = .ok (answer, after) := by
  cases runs with
  | skipped skips => exact skips
  | handed read served ran prepared =>
    refine (Rendering.get_bind _ _).trans ?_
    rw [read]
    refine Rendering.bind_eq_ok.mpr ⟨_, _, served, ?_⟩
    refine Rendering.bind_eq_ok.mpr ⟨_, _, ran, ?_⟩
    exact Rendering.bind_eq_ok.mpr ⟨_, _, prepared, rfl⟩

theorem Runs.same {answer answer' : Option (SnippetResult × Text)} {assets assets' : List Asset}
    {after' : RenderState} (runs : Runs renderer visit before answer assets after)
    (others : Runs renderer visit before answer' assets' after') :
    answer = answer' ∧ assets = assets' ∧ after = after' := by
  have equal := runs.ran.symm.trans others.ran
  cases runs with
  | skipped skips =>
    cases others with
    | skipped skips' =>
      cases equal
      exact ⟨rfl, rfl, rfl⟩
    | handed => cases equal
  | handed read served ran prepared =>
    cases others with
    | skipped skips' => cases equal
    | handed read' served' ran' prepared' =>
      cases read.symm.trans read'
      cases served.symm.trans served'
      cases ran.symm.trans ran'
      cases prepared.symm.trans prepared'
      exact ⟨rfl, rfl, rfl⟩

end Renderer

/-- A reference that the script of a snippet hands back: an element with a snippet, or a plugin. -/
inductive Pointer where
  | snippet (element reference : Data)
  | plugin (reference : Reference)

namespace SnippetResult

def elementPointers (elements : List Data) : List Pointer :=
  elements.filterMap fun element => (element.field? "snippet").map (Pointer.snippet element)

def pointers (result : SnippetResult) : List Pointer :=
  elementPointers result.elements ++ result.plugins.map Pointer.plugin

def plainElements (elements : List Data) : List Data :=
  elements.filter fun element => (element.field? "snippet").isNone

/-- What the scripts get of a snippet that the snippets with some keys are in. -/
def entry (result : SnippetResult) (js : Text) (keys : List String) : SnippetPayload where
  self := result.self
  data := result.data
  js
  snippets := keys
  elements := plainElements result.elements

end SnippetResult

/-- What the scripts get of a plugin whose root snippet has a key. -/
def Plugin.payload (plugin : Plugin) (root : String) : PluginPayload where
  name := plugin.name
  key := plugin.key
  root
  guiNodes := plugin.config.client.guiNodes

/-- Where a reference leads: to a snippet that is visited under a key of its own, or to a plugin and the
root snippet of that. -/
structure Landing where
  owner : Option Plugin
  requested : Option String
  parent : Option String
  child : String → Visit
  named : ∀ key, (child key).key = key
  below : ∀ key, (child key).parent = parent

namespace Landing

def ofPlugin (plugin : Plugin) (reference : Reference) (parent : Option String) (files : List Path)
    (names : List String) : Landing where
  owner := some plugin
  requested := reference.key
  parent
  child key := {
    plugin, key, parent, files
    file := plugin.resolve plugin.config.rootSnippet
    params := plugin.hooks.extendParams plugin.config reference.params
    names := names ++ [plugin.name] }
  named _ := rfl
  below _ := rfl

/-- The assets of a plugin are added before its root snippet gets a key. -/
def begun (lead : Landing) (state : RenderState) : RenderState :=
  match lead.owner with
  | some plugin => { state with assets := state.assets.merge plugin.assets }
  | none => state

/-- A plugin is listed if its root snippet was rendered. -/
def ended (lead : Landing) (answer : Option String) (state : RenderState) : RenderState :=
  match lead.owner, answer with
  | some plugin, some root =>
      { state with
        payload := { state.payload with plugins := state.payload.plugins ++ [plugin.payload root] } }
  | _, _ => state

theorem ended_none (lead : Landing) (state : RenderState) : lead.ended none state = state := by
  unfold ended
  cases lead.owner <;> rfl

end Landing

namespace Renderer

def follow (renderer : Renderer) (inner : Visit → Rendering Bool) (visit : Visit) :
    Pointer → Rendering (Option String)
  | .snippet element reference => renderer.renderReference inner visit element reference
  | .plugin reference => renderer.renderSubPlugin inner visit reference

/-- Where a reference leads from a snippet, or why it is refused: its file is not found or its plugin not
loaded, or the snippet is inside of it. -/
def lead (renderer : Renderer) (visit : Visit) (tree : Tree) : Pointer → Except String Landing
  | .snippet element reference =>
      match reference.decode? (Reference.decode "path") with
      | none => .error "bad snippet reference"
      | some reference =>
          match SnippetSearch.file tree renderer.plugins visit.plugin visit.file reference.target with
          | .error message => .error message
          | .ok file =>
              if visit.files.any (·.same file) then .error s!"snippet cycle through {file.quoted}"
              else .ok {
                owner := none
                requested := reference.key <|> (element.field? "key").bind Data.text?
                parent := some visit.key
                child := fun key =>
                  { visit with file, key, params := reference.params, parent := some visit.key }
                named := fun _ => rfl
                below := fun _ => rfl }
  | .plugin reference =>
      if visit.names.contains reference.target then
        let chain := String.intercalate " -> " visit.names
        .error s!"plugin cycle through {reference.target} ({chain})"
      else
        match renderer.plugins.get? reference.target with
        | none => .error s!"plugin {reference.target} not found"
        | some entry =>
            match Plugin.load tree renderer.hooks entry with
            | .error failure => .error failure.message
            | .ok plugin =>
                .ok (.ofPlugin plugin reference (some visit.key) visit.files visit.names)

def enter (inner : Visit → Rendering Bool) (lead : Landing) : Rendering (Option String) := do
  modify lead.begun
  match ← claimKey lead.requested with
  | none => return none
  | some key =>
      let rendered ← inner (lead.child key)
      let answer := if rendered then some key else none
      modify (lead.ended answer)
      return answer

def followLead (inner : Visit → Rendering Bool) (visit : Visit) :
    Except String Landing → Rendering (Option String)
  | .error message => do
      report .resolution (some visit.file) message
      return none
  | .ok lead => enter inner lead

theorem claimKey_bind {β : Type} (requested : Option String) (next : Option String → Rendering β)
    (state : RenderState) : (claimKey requested >>= next) state =
      next (state.claimKey requested).1 (state.claimKey requested).2 :=
  rfl

theorem renderPlugin_eq (inner : Visit → Rendering Bool) (plugin : Plugin) (reference : Reference)
    (parent : Option String) (files : List Path) (names : List String) :
    renderPlugin inner plugin reference parent files names =
      enter inner (.ofPlugin plugin reference parent files names) := by
  unfold renderPlugin enter
  refine congrArg (_ >>= ·) (funext fun _ => congrArg (_ >>= ·) (funext fun claimed => ?_))
  cases claimed with
  | none => rfl
  | some key =>
    refine congrArg (_ >>= ·) (funext fun rendered => ?_)
    cases rendered <;> rfl

theorem follow_apply (renderer : Renderer) (inner : Visit → Rendering Bool) (visit : Visit)
    (pointer : Pointer) (state : RenderState) :
    renderer.follow inner visit pointer state =
      followLead inner visit (renderer.lead visit state.tree pointer) state := by
  cases pointer with
  | snippet element reference =>
    rw [follow, renderReference, lead]
    cases reference.decode? (Reference.decode "path") with
    | none => rfl
    | some reference =>
      refine (Rendering.get_bind _ _).trans ?_
      dsimp only
      cases SnippetSearch.file state.tree renderer.plugins visit.plugin visit.file reference.target with
      | error message => rfl
      | ok file =>
        dsimp only
        split
        · rfl
        · rw [claimKey_bind, followLead, enter, Rendering.modify_bind, claimKey_bind]
          dsimp only [Landing.begun]
          cases (state.claimKey _).1 <;> rfl
  | plugin reference =>
    rw [follow, renderSubPlugin, lead]
    split
    · rfl
    · cases renderer.plugins.get? reference.target with
      | none => rfl
      | some entry =>
        refine (Rendering.get_bind _ _).trans ?_
        dsimp only
        cases Plugin.load state.tree renderer.hooks entry with
        | error failure => rfl
        | ok plugin => exact congrFun (renderPlugin_eq _ _ _ _ _ _) state

theorem lead_parent {tree : Tree} {pointer : Pointer} {lead : Landing}
    (leads : renderer.lead visit tree pointer = .ok lead) : lead.parent = some visit.key := by
  cases pointer with
  | snippet element reference =>
    rw [Renderer.lead] at leads
    split at leads
    · cases leads
    · split at leads
      · cases leads
      · split at leads
        · cases leads
        · cases leads
          rfl
  | plugin reference =>
    rw [Renderer.lead] at leads
    split at leads
    · cases leads
    · split at leads
      · cases leads
      · split at leads
        · cases leads
        · cases leads
          rfl

/-- Follows references in turn, and hands back the keys of what was rendered. -/
def followAll (renderer : Renderer) (inner : Visit → Rendering Bool) (visit : Visit) :
    List Pointer → Rendering (List String)
  | [] => pure []
  | pointer :: rest => do
      let key ← renderer.follow inner visit pointer
      let keys ← renderer.followAll inner visit rest
      return key.toList ++ keys

theorem followAll_append (inner : Visit → Rendering Bool) (visit : Visit) (left right : List Pointer) :
    renderer.followAll inner visit (left ++ right) = do
      let early ← renderer.followAll inner visit left
      let late ← renderer.followAll inner visit right
      return early ++ late := by
  induction left with
  | nil => simp [followAll]
  | cons pointer rest ih => simp only [cons_append, followAll, ih, bind_assoc, pure_bind, append_assoc]

theorem renderElements_eq (inner : Visit → Rendering Bool) (visit : Visit) (elements : List Data) :
    renderElements renderer inner visit elements = do
      let keys ← renderer.followAll inner visit (SnippetResult.elementPointers elements)
      return (keys, SnippetResult.plainElements elements) := by
  induction elements with
  | nil => simp [renderElements, SnippetResult.elementPointers, SnippetResult.plainElements, followAll]
  | cons element rest ih =>
    rw [renderElements, SnippetResult.elementPointers, filterMap_cons, SnippetResult.plainElements,
      filter_cons]
    cases element.field? "snippet" with
    | none => simp [ih, SnippetResult.elementPointers, SnippetResult.plainElements]
    | some reference =>
      simp [ih, followAll, follow, SnippetResult.elementPointers, SnippetResult.plainElements]

private theorem renderSubPlugins_eq (inner : Visit → Rendering Bool) (visit : Visit)
    (references : List Reference) :
    renderSubPlugins renderer inner visit references =
      renderer.followAll inner visit (references.map Pointer.plugin) := by
  induction references with
  | nil => rfl
  | cons reference rest ih => rw [renderSubPlugins, ih, map_cons, followAll, follow]

def addSnippet (visit : Visit) (result : SnippetResult) (js : Text) (state : RenderState) :
    RenderState :=
  { state with snippets := state.snippets ++ [visit.snippet result js] }

def putEntry (visit : Visit) (entry : SnippetPayload) (state : RenderState) : RenderState :=
  { state with
    payload := { state.payload with snippets := state.payload.snippets.put visit.key entry } }

theorem renderInside_eq (inner : Visit → Rendering Bool) (visit : Visit) (result : SnippetResult)
    (js : Text) :
    renderInside renderer inner visit result js =
      (modify (addSnippet visit result js) >>= fun _ =>
        renderer.followAll inner visit result.pointers >>= fun keys =>
          modify (putEntry visit (result.entry js keys))) := by
  unfold renderInside
  rw [renderElements_eq, renderSubPlugins_eq, SnippetResult.pointers, followAll_append]
  simp only [bind_assoc, pure_bind]
  rfl

end Renderer

end PageScript
