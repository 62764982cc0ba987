import PageScript.Proofs.Page.Ledger

/-! What a ledger comes to: the keys, assets, snippets and diagnostics of what was begun (`Renderer.Tale`). -/

open List

namespace PageScript

open Lineage RenderState

variable {first second third before middle after : RenderState} {visit : Visit} {renderer : Renderer}
  {parent answer : Option String} {page : Page}

namespace Renderer

variable {told : Telling} {left right log : List Begun} {settlements : List Settlement}
  {accounts : List Account} {settlement : Settlement} {forest : List Lineage} {lead : Landing}

namespace Begun

def keys : Begun → List String
  | .plugin _ _ => []
  | .snippet visit _ _ => [visit.key]

def assets : Begun → List Asset
  | .plugin owner _ => owner.assets.items
  | .snippet _ assets _ => assets

def payload? : Begun → Option PluginPayload
  | .plugin owner root => root.map owner.payload
  | .snippet _ _ _ => none

def renderedKeys : Begun → List String
  | .plugin _ _ => []
  | .snippet visit _ rendered => if rendered then [visit.key] else []

end Begun

/-! ### Ledgers -/

structure Logs (before after : RenderState) (log : List Begun) : Prop where
  keys : after.keys = before.keys ++ log.flatMap Begun.keys
  distinct : before.keys.Nodup → after.keys.Nodup
  snippets : after.snippets.map Snippet.key =
    before.snippets.map Snippet.key ++ log.flatMap Begun.renderedKeys
  assets : after.assets = before.assets.addAll (log.flatMap Begun.assets)
  /-- A plugin is listed after those inside of it. -/
  plugins : after.payload.plugins.Perm (before.payload.plugins ++ log.filterMap Begun.payload?)
  files : after.tree.filePlaces = before.tree.filePlaces

theorem Logs.of_passes (passes : Passes [] before after) : Logs before after [] := by
  refine ⟨?_, ?_, ?_, passes.assets, ?_, passes.files⟩
  · rw [passes.keys, flatMap_nil, append_nil]
  · rw [passes.keys]
    exact id
  · rw [passes.snippets, flatMap_nil, append_nil]
  · rw [passes.payload, filterMap_nil, append_nil]

theorem Logs.append (begun : Logs first second left) (ended : Logs second third right) :
    Logs first third (left ++ right) := by
  refine ⟨?_, ended.distinct ∘ begun.distinct, ?_, ?_, ?_, ended.files.trans begun.files⟩
  · rw [ended.keys, begun.keys, flatMap_append, append_assoc]
  · rw [ended.snippets, begun.snippets, flatMap_append, append_assoc]
  · rw [ended.assets, begun.assets, flatMap_append, AssetSet.addAll_append]
  · rw [filterMap_append, ← append_assoc]
    exact ended.plugins.trans (begun.plugins.append_right _)

/-- A key that was free was taken, and nothing else was done. -/
def Reserves (key : String) (before after : RenderState) : Prop :=
  key ∉ before.keys ∧
    ∃ number, after = { before with keys := before.keys ++ [key], lastNumber := number }

theorem claimKey_cases {requested : Option String}
    (claimed : before.claimKey requested = (answer, after)) :
    (∃ key, requested = some key ∧ key ∈ before.keys ∧ answer = none ∧
      after = before.report .resolution none s!"duplicate snippet key '{key}'") ∨
    ∃ key, (∀ wanted, requested = some wanted → wanted = key) ∧ answer = some key ∧
      Reserves key before after := by
  cases requested with
  | none =>
    cases claimed
    refine .inr ⟨_, ?_, rfl, before.numbered_freeNumber, _, rfl⟩
    rintro _ ⟨⟩
  | some key =>
    rw [RenderState.claimKey] at claimed
    split at claimed
    · rename_i taken
      cases claimed
      exact .inl ⟨key, rfl, contains_iff_mem.mp taken, rfl, rfl⟩
    · rename_i free
      cases claimed
      refine .inr ⟨key, fun _ asked => (Option.some.inj asked).symm, rfl, ?_, _, rfl⟩
      exact mt contains_iff_mem.mpr free

theorem Reserves.logs {assets : List Asset} (rendered : Bool) (reserves : Reserves visit.key before middle)
    (passes : Passes assets middle after) (more : List Snippet)
    (own : more.map Snippet.key = if rendered then [visit.key] else []) :
    Logs before { after with snippets := after.snippets ++ more } [.snippet visit assets rendered] := by
  obtain ⟨free, number, rfl⟩ := reserves
  refine ⟨passes.keys, ?_, ?_, ?_, ?_, passes.files⟩
  · intro distinct
    rw [passes.keys, nodup_append]
    refine ⟨distinct, nodup_singleton _, ?_⟩
    rintro key member other same rfl
    rw [mem_singleton.mp same] at member
    exact free member
  · rw [map_append, own, passes.snippets, flatMap_singleton]
    rfl
  · rw [passes.assets, flatMap_singleton]
    rfl
  · rw [passes.payload, filterMap_cons, Begun.payload?, filterMap_nil, append_nil]

theorem Logs.entered (logs : Logs (lead.begun before) after log) (answer : Option String) :
    Logs before (lead.ended answer after) (leadLog lead answer ++ log) := by
  obtain ⟨_ | owner, _, _, _, _, _⟩ := lead
  · exact logs
  have assets : after.assets = before.assets.addAll (owner.assets.items ++ log.flatMap Begun.assets) := by
    rw [AssetSet.addAll_append]
    exact logs.assets
  cases answer with
  | none => exact ⟨logs.keys, logs.distinct, logs.snippets, assets, logs.plugins, logs.files⟩
  | some root =>
    refine ⟨logs.keys, logs.distinct, logs.snippets, assets, ?_, logs.files⟩
    refine (logs.plugins.append_right [owner.payload root]).trans ?_
    rw [append_assoc]
    exact perm_append_comm.append_left _

/-! ### References -/

/-- The keys that were taken when a reference was followed are those of an earlier part of the ledger. -/
def Placed (before : RenderState) (log : List Begun) (settlement : Settlement) : Prop :=
  ∃ early late, log = early ++ late ∧
    settlement.before.keys = before.keys ++ early.flatMap Begun.keys

theorem Placed.extend (placed : Placed before log settlement) (more : List Begun) :
    Placed before (log ++ more) settlement := by
  obtain ⟨early, late, rfl, keys⟩ := placed
  exact ⟨early, late ++ more, append_assoc _ _ _, keys⟩

theorem Placed.shift (keys : second.keys = first.keys ++ left.flatMap Begun.keys)
    (placed : Placed second right settlement) : Placed first (left ++ right) settlement := by
  obtain ⟨early, late, rfl, taken⟩ := placed
  refine ⟨left ++ early, late, (append_assoc _ _ _).symm, ?_⟩
  rw [taken, keys, flatMap_append, append_assoc]

/-- The diagnostics that were added for two references are apart. -/
def Settlement.Apart (left right : Settlement) : Prop :=
  left.after.diagnostics.length ≤ right.before.diagnostics.length ∨
    right.after.diagnostics.length ≤ left.before.diagnostics.length

/-- Each of these references added a diagnostic of its own meanwhile. -/
structure Spread (before after : RenderState) (settlements : List Settlement) : Prop where
  within : ∀ settlement ∈ settlements,
    before.diagnostics <+: settlement.before.diagnostics ∧
    settlement.before.Noted settlement.after ∧
    settlement.after.diagnostics <+: after.diagnostics
  apart : settlements.Pairwise Settlement.Apart

theorem Spread.nil (before after : RenderState) : Spread before after [] :=
  ⟨forall_mem_nil _, .nil⟩

theorem Spread.perm {others : List Settlement} (spread : Spread before after settlements)
    (perm : settlements.Perm others) : Spread before after others := by
  refine ⟨fun settlement member => spread.within settlement (perm.mem_iff.mpr member), ?_⟩
  exact spread.apart.perm perm fun apart => apart.symm

theorem Spread.append {left right : List Settlement} (early : Spread first second left)
    (late : Spread second third right) (begun : first.diagnostics <+: second.diagnostics)
    (ended : second.diagnostics <+: third.diagnostics) : Spread first third (left ++ right) := by
  constructor
  · intro settlement member
    rcases mem_append.mp member with within | within
    · obtain ⟨start, noted, final⟩ := early.within settlement within
      exact ⟨start, noted, final.trans ended⟩
    · obtain ⟨start, noted, final⟩ := late.within settlement within
      exact ⟨begun.trans start, noted, final⟩
  · rw [pairwise_append]
    refine ⟨early.apart, late.apart, ?_⟩
    intro l within r among
    have final := (early.within l within).2.2
    have start := (late.within r among).1
    exact .inl (Nat.le_trans final.length_le start.length_le)

/-! ### Tales -/

/-- Between two states just this was begun, and snippets with these accounts were rendered. -/
structure Recounts (renderer : Renderer) (before after : RenderState) (log : List Begun)
    (accounts : List Account) : Prop where
  logs : Logs before after log
  snippets : after.snippets = before.snippets ++ accounts.map Account.snippet
  sound : ∀ account ∈ accounts, account.Sound renderer
  placed : ∀ settlement ∈ accounts.flatMap Account.settlements, Placed before log settlement

/-- The accounts are those of lineages with a common parent, and each reference that was skipped in them
added a diagnostic of its own. -/
structure Tale (renderer : Renderer) (parent : Option String) (before after : RenderState)
    (forest : List Lineage) (log : List Begun) (accounts : List Account) : Prop
    extends Recounts renderer before after log accounts where
  entries : after.payload.snippets = Keyed.putAll (entriesAll forest) before.payload.snippets
  nodes : (nodesAll forest).map (fun lineage => (lineage.snippet, lineage.entry)) =
    accounts.map fun account => (account.snippet, account.entry)
  linked : LinkedAll forest
  parents : ∀ lineage ∈ forest, lineage.snippet.parent = parent
  diagnostics : before.diagnostics <+: after.diagnostics
  spread : Spread before after (accounts.flatMap Account.skipped)

theorem Tale.of_passes (passes : Passes [] before after) : Tale renderer parent before after [] [] [] :=
  ⟨⟨.of_passes passes, passes.snippets.trans (append_nil _).symm, forall_mem_nil _, forall_mem_nil _⟩,
    congrArg (·.snippets) passes.payload, rfl, forall_mem_nil _, forall_mem_nil _, passes.diagnostics,
    .nil _ _⟩

theorem Tale.append {trees : List Lineage} {others : List Account}
    (begun : Tale renderer parent first second forest left accounts)
    (ended : Tale renderer parent second third trees right others) :
    Tale renderer parent first third (forest ++ trees) (left ++ right) (accounts ++ others) := by
  refine ⟨⟨begun.logs.append ended.logs, ?_, forall_mem_append.mpr ⟨begun.sound, ended.sound⟩, ?_⟩, ?_, ?_,
    ?_, forall_mem_append.mpr ⟨begun.parents, ended.parents⟩, begun.diagnostics.trans ended.diagnostics, ?_⟩
  · rw [ended.snippets, begun.snippets, map_append, append_assoc]
  · rw [flatMap_append]
    refine forall_mem_append.mpr ⟨fun settlement member => ?_, fun settlement member => ?_⟩
    · exact (begun.placed settlement member).extend right
    · exact (ended.placed settlement member).shift begun.logs.keys
  · rw [ended.entries, begun.entries, entriesAll_append, Keyed.putAll_append]
  · rw [nodesAll_append, map_append, map_append, begun.nodes, ended.nodes]
  · rw [LinkedAll, nodesAll_append]
    exact forall_mem_append.mpr ⟨begun.linked, ended.linked⟩
  · rw [flatMap_append]
    exact begun.spread.append ended.spread begun.diagnostics ended.diagnostics

theorem Tale.entered (tale : Tale renderer parent (lead.begun before) after forest log accounts)
    (answer : Option String) :
    Tale renderer parent before (lead.ended answer after) forest (leadLog lead answer ++ log)
      accounts := by
  have logs := tale.logs.entered answer
  have keys : (lead.begun before).keys = before.keys ++ (leadLog lead answer).flatMap Begun.keys := by
    obtain ⟨_ | owner, _, _, _, _, _⟩ := lead <;> exact (append_nil _).symm
  have placed := fun settlement member => (tale.placed settlement member).shift keys
  obtain ⟨_ | owner, _, _, _, _, _⟩ := lead
  · exact tale
  cases answer <;>
    exact ⟨⟨logs, tale.snippets, tale.sound, placed⟩, tale.entries, tale.nodes, tale.linked, tale.parents,
      tale.diagnostics, tale.spread.within, tale.spread.apart⟩

/-- A step hands back the key of the lineage that was rendered. If none was, there is a diagnostic. -/
def Ends (renderer : Renderer) (parent : Option String) (before after : RenderState)
    (answer : Option String) (log : List Begun) (accounts : List Account) : Prop :=
  ∃ forest, Tale renderer parent before after forest log accounts ∧
    answer.toList = forest.map key ∧ (answer = none → before.Noted after)

/-- A telling of visits to snippets each of whose keys was just taken. -/
def Recites (renderer : Renderer) (told : Telling) : Prop :=
  ∀ {visit before middle rendered after log accounts}, Reserves visit.key before middle →
    told visit middle rendered after log accounts →
    Ends renderer visit.parent before after (if rendered then some visit.key else none) log accounts

section

variable (recites : renderer.Recites told)

include recites

theorem Enters.ends (enters : Enters told lead before answer after log accounts) :
    Ends renderer lead.parent before after answer log accounts := by
  have earlier {state : RenderState} (noted : (lead.begun before).Noted state) : before.Noted state := by
    obtain ⟨_ | owner, _, _, _, _, _⟩ := lead <;> exact noted
  cases enters with
  | taken claimed =>
    rcases claimKey_cases claimed with ⟨key, _, _, _, rfl⟩ | ⟨_, _, other, _⟩
    · have tale : Tale renderer lead.parent (lead.begun before) _ [] [] [] :=
        .of_passes (report_passes _ .resolution none s!"duplicate snippet key '{key}'")
      have entered := tale.entered none
      rw [append_nil, Landing.ended_none] at entered
      exact ⟨[], entered, rfl, fun _ => earlier (report_noted _ _ _ _)⟩
    · cases other
  | @visited key middle later rendered answer log _ claimed visits answers =>
    rcases claimKey_cases claimed with ⟨_, _, _, other, _⟩ | ⟨_, _, same, reserves⟩
    · cases other
    · cases same
      rw [← lead.named key] at reserves
      obtain ⟨forest, tale, named, noted⟩ := recites reserves visits
      rw [lead.named, ← answers] at named noted
      rw [lead.below] at tale
      refine ⟨forest, tale.entered answer, named, ?_⟩
      rintro rfl
      rw [Landing.ended_none]
      exact earlier (noted rfl)

theorem Follows.ends {pointer : Pointer}
    (follows : Follows renderer told visit pointer before answer after log accounts) :
    Ends renderer (some visit.key) before after answer log accounts := by
  cases follows with
  | refused unled =>
    exact ⟨[], .of_passes (before.report_passes _ _ _), rfl, fun _ => before.report_noted _ _ _⟩
  | entered leads enters =>
    rw [← lead_parent leads]
    exact enters.ends recites

/-- While references are followed, those that are skipped and those skipped inside of what is rendered
each add a diagnostic of their own. -/
theorem Settles.tale {inner : Visit → Rendering Bool}
    (settles : Settles renderer inner told visit before settlements after log accounts) :
    ∃ forest, Tale renderer (some visit.key) before after forest log accounts ∧
      settlements.filterMap Settlement.key = forest.map key ∧
      (∀ settlement ∈ settlements, Placed before log settlement) ∧
      Spread before after (settlements.filter (·.key.isNone) ++ accounts.flatMap Account.skipped) := by
  induction settles with
  | nil state =>
    exact ⟨[], .of_passes ⟨rfl, rfl, rfl, rfl, rfl, prefix_refl _⟩, rfl, forall_mem_nil _, .nil _ _⟩
  | cons settlement followed follows settles ih =>
    obtain ⟨forest, begun, named, noted⟩ := follows.ends recites
    obtain ⟨trees, ended, listed, placed, spread⟩ := ih
    refine ⟨forest ++ trees, begun.append ended, ?_,
      forall_mem_cons.mpr ⟨⟨[], _, rfl, (append_nil _).symm⟩, fun later member => ?_⟩, ?_⟩
    · rw [map_append, ← named, ← listed, filterMap_cons]
      cases settlement.key <;> rfl
    · exact (placed later member).shift begun.logs.keys
    cases key : settlement.key with
    | none =>
      -- nothing is rendered while a reference is skipped
      have nodes := begun.nodes
      rw [key] at named
      rw [map_eq_nil_iff.mp named.symm] at nodes
      rw [map_eq_nil_iff.mp nodes.symm]
      have here : Spread settlement.before settlement.after [settlement] :=
        ⟨forall_mem_singleton.mpr ⟨prefix_refl _, noted key, prefix_refl _⟩, pairwise_singleton _ _⟩
      have whole := here.append spread begun.diagnostics ended.diagnostics
      rw [filter_cons, key]
      exact whole
    | some key =>
      have whole := begun.spread.append spread begun.diagnostics ended.diagnostics
      rw [filter_cons, key, flatMap_append]
      refine whole.perm ?_
      rw [← append_assoc, ← append_assoc]
      exact perm_append_comm.append_right _

end

theorem told_recites (renderer : Renderer) (fuel : Nat) : renderer.Recites (renderer.Told fuel) := by
  induction fuel with
  | zero =>
    intro visit before middle rendered after log accounts reserves visits
    cases visits
  | succ fuel ih =>
    intro visit before middle rendered after log accounts reserves visits
    cases visits with
    | skipped runs =>
      obtain ⟨passes, refuses⟩ := runs.passes
      have logs := reserves.logs false passes [] rfl
      obtain ⟨_, number, rfl⟩ := reserves
      rw [append_nil] at logs
      exact ⟨[], ⟨⟨logs, passes.snippets.trans (append_nil _).symm, forall_mem_nil _, forall_mem_nil _⟩,
        congrArg (·.snippets) passes.payload, rfl, forall_mem_nil _, forall_mem_nil _, passes.diagnostics,
        .nil _ _⟩, rfl, fun _ => (refuses rfl).noted⟩
    | rendered account entered begun runs settles pointers =>
      have key : account.visit.key = visit.key := by
        rw [entered]
        rfl
      have parent : account.visit.parent = visit.parent := by
        rw [entered]
        rfl
      have passes := runs.passes.1
      have logs := reserves.logs true passes [account.snippet] (congrArg ([·]) key)
      obtain ⟨_, number, rfl⟩ := reserves
      obtain ⟨children, tale, listed, placed, spread⟩ := settles.tale ih
      have later := tale.logs
      refine ⟨[⟨account.snippet, account.entry, children⟩],
        ⟨⟨logs.append ⟨later.keys, later.distinct, later.snippets, later.assets, later.plugins, later.files⟩,
        ?_, forall_mem_cons.mpr ⟨⟨pointers, _, _, fuel, _, _, _, begun ▸ runs, settles⟩, tale.sound⟩, ?_⟩,
        ?_, ?_, ?_, forall_mem_singleton.mpr parent,
        passes.diagnostics.trans tale.diagnostics, ?_⟩, congrArg ([·]) key.symm,
        fun refused => by cases refused⟩
      · rw [map_cons]
        refine (tale.snippets.trans (append_assoc _ _ _)).trans ?_
        rw [passes.snippets]
        rfl
      · rw [flatMap_cons]
        refine forall_mem_append.mpr ⟨fun settlement member => ?_, fun settlement member => ?_⟩
        · exact (placed settlement member).shift logs.keys
        · exact (tale.placed settlement member).shift logs.keys
      · -- the snippet is listed before its children, but its entry is put after theirs
        rw [entriesAll, entriesAll, append_nil, entries_eq, Keyed.putAll_append]
        refine congrArg (Keyed.put _ _) (tale.entries.trans ?_)
        rw [addSnippet, passes.payload]
      · rw [nodesAll_singleton, nodes_eq, map_cons, map_cons, tale.nodes]
      · rw [linkedAll_cons]
        exact ⟨⟨tale.parents, listed⟩, tale.linked, forall_mem_nil _⟩
      · refine ⟨fun settlement member => ?_, spread.apart⟩
        obtain ⟨start, within⟩ := spread.within settlement member
        exact ⟨passes.diagnostics.trans start, within⟩

/-! ### Pages -/

structure Assembled (renderer : Renderer) (root : String) (state : RenderState) (page : Page) : Prop where
  key : page.root = root
  snippets : page.snippets = state.snippets
  entries : page.payload.snippets = state.payload.snippets
  html : page.html = (compose state.snippets (state.snippets.length + 1) root).2
  plugins : page.payload.plugins = state.payload.plugins
  diagnostics : state.diagnostics <+: page.diagnostics
  assets : ∃ tree, tree.filePlaces = state.tree.filePlaces ∧
    page.payload.assets = (LinkedAssets.ofAssets renderer.linker tree state.assets).1 ∧
    (LinkedAssets.ofAssets renderer.linker tree state.assets).2.1 ⊆ page.diagnostics

private theorem assemble_eq_ok {plugin : Plugin} {root : String}
    (done : renderer.assemble plugin root before = .ok (page, after)) :
    Assembled renderer root before page := by
  obtain ⟨icon, middle, linked, done⟩ := Rendering.bind_eq_ok.mp done
  obtain ⟨_, snippets, payload, assets, files, diagnostics⟩ := linkNamed_passes linked
  replace done := Rendering.of_get done
  obtain ⟨_, _, _, done⟩ := Rendering.bind_eq_ok.mp done
  cases done
  refine ⟨rfl, snippets, congrArg (·.snippets) payload, ?_, congrArg (·.plugins) payload,
    diagnostics.trans (prefix_append _ _), middle.tree, files, ?_, ?_⟩
  · rw [← snippets]
  · rw [show before.assets = middle.assets from assets.symm]
    rfl
  · rw [show before.assets = middle.assets from assets.symm]
    exact subset_append_right _ _

/-- A page is assembled from one lineage. -/
theorem Records.tale {tree : Tree} {entry : PluginEntry}
    (records : Records renderer tree entry page log accounts) :
    ∃ root state, Tale renderer none { tree } state [root] log accounts ∧
      Assembled renderer root.key state page := by
  obtain ⟨loaded, enters, assembled⟩ := records
  obtain ⟨forest, tale, named, _⟩ := enters.ends (renderer.told_recites _)
  obtain ⟨root, rfl, rfl⟩ := map_eq_singleton_iff.mp named.symm
  exact ⟨root, _, tale, assemble_eq_ok assembled⟩

end Renderer

end PageScript
