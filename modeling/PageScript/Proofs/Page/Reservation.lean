import PageScript.Proofs.Page.Tale

/-! A key stays taken when its snippet is skipped (`Renderer.render_rejections`). -/

open List

namespace PageScript

variable {answer : Option String} {before after : RenderState} {visit : Visit} {renderer : Renderer}

namespace Renderer

variable {log : List Begun} {accounts : List Account}

/-- The key that a reference asks for, if it leads to a snippet. -/
def asks (renderer : Renderer) (visit : Visit) (tree : Tree) (pointer : Pointer) : Option String :=
  (renderer.lead visit tree pointer).toOption.bind Landing.requested

/-- The diagnostic of a reference that asks for a key that is taken. -/
def duplicateKey (key : String) : Diagnostic :=
  { topic := .resolution, message := s!"duplicate snippet key '{key}'", file := none }

theorem duplicateKey_inj {left right : String} (same : duplicateKey left = duplicateKey right) :
    left = right := by
  have message := congrArg (·.message.toList) same
  have inside : toString left = toString right := by
    simpa [duplicateKey, String.toList_inj] using message
  exact inside

/-- A reference was followed in vain because the key was taken. -/
def Rejection (answer : Option String) (before after : RenderState) (key : String) : Prop :=
  answer = none ∧ after.diagnostics = before.diagnostics ++ [duplicateKey key]

private theorem not_rejection_of_refuses (refuses : before.Refuses after) (key : String) :
    ¬ Rejection answer before after key := by
  rintro ⟨_, added⟩
  obtain ⟨noted, last, whole, named⟩ := refuses
  rw [whole, append_right_inj] at added
  rw [singleton_inj.mp (append_inj_right' (added.trans (nil_append _).symm) rfl)] at named
  cases named

/-- A telling in which a snippet that is skipped leaves a diagnostic with a file. -/
def TellsWhere (told : Telling) : Prop :=
  ∀ ⦃visit before after log accounts⦄, told visit before false after log accounts → before.Refuses after

theorem told_tellsWhere (renderer : Renderer) (fuel : Nat) : TellsWhere (renderer.Told fuel) := by
  intro visit before after log accounts visits
  cases fuel with
  | zero => cases visits
  | succ fuel =>
    cases visits with
    | skipped runs => exact runs.passes.2 rfl

section

variable {told : Telling} (tellsWhere : TellsWhere told)

include tellsWhere

/-- If the key is taken nothing more is done; otherwise a reference in vain says where it went wrong. -/
theorem Enters.rejection_iff {lead : Landing} (enters : Enters told lead before answer after log accounts)
    (key : String) :
    Rejection answer before after key ↔ lead.requested = some key ∧ key ∈ before.keys := by
  have keys : (lead.begun before).keys = before.keys := by
    obtain ⟨_ | owner, _, _, _, _, _⟩ := lead <;> rfl
  have diagnostics : (lead.begun before).diagnostics = before.diagnostics := by
    obtain ⟨_ | owner, _, _, _, _, _⟩ := lead <;> rfl
  rw [Rejection, ← keys, ← diagnostics]
  cases enters with
  | taken claimed =>
    rcases claimKey_cases claimed with ⟨wanted, asked, member, _, rfl⟩ | ⟨_, _, other, _⟩
    · rw [asked]
      constructor
      · rintro ⟨_, added⟩
        have same := duplicateKey_inj (singleton_inj.mp (append_cancel_left added))
        exact ⟨congrArg some same, same ▸ member⟩
      · rintro ⟨⟨⟩, _⟩
        exact ⟨rfl, rfl⟩
    · cases other
  | @visited _ _ _ rendered _ _ _ claimed visits answers =>
    rcases claimKey_cases claimed with ⟨_, _, _, other, _⟩ | ⟨_, asked, same, free, number, rfl⟩
    · cases other
    cases same
    constructor
    · intro rejection
      cases rendered with
      | true => cases answers.symm.trans rejection.1
      | false =>
        rw [answers.trans (if_neg Bool.false_ne_true), Landing.ended_none] at rejection
        exact absurd rejection (not_rejection_of_refuses (tellsWhere visits) key)
    · rintro ⟨wanted, member⟩
      exact absurd (asked key wanted ▸ member) free

theorem Follows.rejection_iff {pointer : Pointer}
    (follows : Follows renderer told visit pointer before answer after log accounts) (key : String) :
    Rejection answer before after key ↔
      renderer.asks visit before.tree pointer = some key ∧ key ∈ before.keys := by
  rw [asks]
  cases follows with
  | refused unled =>
    rw [unled]
    constructor
    · intro rejection
      exact absurd rejection (not_rejection_of_refuses ⟨[], _, rfl, rfl⟩ key)
    · rintro ⟨⟨⟩, _⟩
  | entered leads enters =>
    rw [leads]
    exact enters.rejection_iff tellsWhere key

theorem Settles.rejection_iff {inner : Visit → Rendering Bool} {settlements : List Settlement}
    (settles : Settles renderer inner told visit before settlements after log accounts)
    {settlement : Settlement} (member : settlement ∈ settlements) (key : String) :
    Rejection settlement.key settlement.before settlement.after key ↔
      renderer.asks visit settlement.before.tree settlement.pointer = some key ∧
        key ∈ settlement.before.keys := by
  induction settles with
  | nil state => cases member
  | cons first followed follows settles ih =>
    rcases mem_cons.mp member with rfl | later
    · exact follows.rejection_iff tellsWhere key
    · exact ih later

end

theorem Begun.renderedKeys_subset (begun : Begun) : begun.renderedKeys ⊆ begun.keys := by
  cases begun with
  | plugin owner root => exact nil_subset _
  | snippet visit assets rendered =>
    cases rendered with
    | false => exact nil_subset _
    | true => exact List.Subset.refl _

/-- A key of a ledger is that of a rendered snippet just if the entry that took it was rendered. -/
theorem mem_renderedKeys_iff {log : List Begun} (distinct : (log.flatMap Begun.keys).Nodup)
    {assets : List Asset} {rendered : Bool} (member : .snippet visit assets rendered ∈ log) :
    visit.key ∈ log.flatMap Begun.renderedKeys ↔ rendered = true := by
  constructor
  · intro shown
    induction log with
    | nil => cases member
    | cons first rest ih =>
      rw [flatMap_cons, nodup_append] at distinct
      obtain ⟨_, others, apart⟩ := distinct
      rw [flatMap_cons, mem_append] at shown
      rcases mem_cons.mp member with rfl | later
      · rcases shown with here | there
        · cases rendered with
          | true => rfl
          | false => cases here
        · obtain ⟨begun, within, listed⟩ := mem_flatMap.mp there
          have taken := mem_flatMap.mpr ⟨begun, within, begun.renderedKeys_subset listed⟩
          exact absurd rfl (apart visit.key mem_cons_self visit.key taken)
      · rcases shown with here | there
        · have taken : visit.key ∈ rest.flatMap Begun.keys :=
            mem_flatMap.mpr ⟨_, later, mem_cons_self⟩
          exact absurd rfl (apart visit.key (first.renderedKeys_subset here) visit.key taken)
        · exact ih others later there
  · rintro rfl
    exact mem_flatMap.mpr ⟨_, member, mem_cons_self⟩

/-- The keys of an earlier part of a ledger are those that its entries took. -/
private theorem mem_earlyKeys_iff {log early late : List Begun} (distinct : (log.flatMap Begun.keys).Nodup)
    (split : log = early ++ late) (key : String) :
    key ∈ early.flatMap Begun.keys ↔
      ∃ visit assets rendered, .snippet visit assets rendered ∈ early ∧ visit.key = key ∧
        (key ∈ log.flatMap Begun.renderedKeys ↔ rendered = true) := by
  constructor
  · intro among
    obtain ⟨begun, within, takes⟩ := mem_flatMap.mp among
    cases begun with
    | plugin owner root => cases takes
    | snippet visit assets rendered =>
      cases mem_singleton.mp takes
      have whole : .snippet visit assets rendered ∈ log := by
        rw [split]
        exact mem_append_left _ within
      exact ⟨visit, assets, rendered, within, rfl, mem_renderedKeys_iff distinct whole⟩
  · rintro ⟨visit, assets, rendered, within, rfl, _⟩
    exact mem_flatMap.mpr ⟨_, within, mem_cons_self⟩

/-- Which references are rejected. A page has one ledger, in which no key is taken twice, and one list of
accounts of its snippets. When a reference of a snippet was followed the keys of an earlier part of the
ledger were taken. The reference is rejected as a duplicate of a key just if it asks for it and an entry in
that part took it; and then the page has the key if that entry was rendered, but not if it was skipped. -/
theorem render_rejections (renderer : Renderer) (tree after : Tree) (entry : PluginEntry) (page : Page)
    (done : renderer.render tree entry = .ok (page, after)) :
    ∃ (log : List Begun) (accounts : List Account),
      (∀ others more, Records renderer tree entry page others more ↔ others = log ∧ more = accounts) ∧
      (log.flatMap Begun.keys).Nodup ∧
      log.flatMap Begun.renderedKeys = page.snippets.map Snippet.key ∧
      accounts.map Account.snippet = page.snippets ∧
      ∀ account ∈ accounts, account.Sound renderer ∧
        ∀ settlement ∈ account.settlements, ∃ early late, log = early ++ late ∧
          settlement.before.keys = early.flatMap Begun.keys ∧
          ∀ key, Rejection settlement.key settlement.before settlement.after key ↔
            renderer.asks account.visit settlement.before.tree settlement.pointer = some key ∧
            ∃ visit assets rendered, .snippet visit assets rendered ∈ early ∧ visit.key = key ∧
              (key ∈ page.snippets.map Snippet.key ↔ rendered = true) := by
  obtain ⟨log, accounts, records⟩ := render_records done
  obtain ⟨root, state, tale, assembled⟩ := records.tale
  have keys : state.keys = log.flatMap Begun.keys := tale.logs.keys
  have distinct : (log.flatMap Begun.keys).Nodup := keys ▸ tale.logs.distinct List.nodup_nil
  have rendered : log.flatMap Begun.renderedKeys = page.snippets.map Snippet.key := by
    rw [assembled.snippets]
    exact tale.logs.snippets.symm
  have listed : accounts.map Account.snippet = page.snippets := by
    rw [assembled.snippets]
    exact tale.snippets.symm
  refine ⟨log, accounts, records.iff, distinct, rendered, listed, ?_⟩
  intro account member
  have sound := tale.sound account member
  refine ⟨sound, ?_⟩
  intro settlement followed
  obtain ⟨_, _, fuel, _, _, _, _, settles⟩ := sound.settled
  obtain ⟨early, late, split, taken⟩ :=
    tale.placed settlement (List.mem_flatMap.mpr ⟨account, member, followed⟩)
  refine ⟨early, late, split, taken, ?_⟩
  intro key
  rw [settles.rejection_iff (renderer.told_tellsWhere fuel) followed key, taken, ← rendered]
  exact and_congr_right fun _ => mem_earlyKeys_iff distinct split key

def coatTree : Tree where
  entries := [
    (["coat"], .folder), (["coat", "lx-config.json"], .file "\x7b\x7d".toList),
    (["coat", "snippets"], .folder), (["coat", "snippets", "_root.js"], .file "root".toList),
    (["coat", "snippets", "torn.js"], .file "torn".toList),
    (["coat", "snippets", "whole.js"], .file "whole".toList)]
  home := []

def coatRenderer : Renderer where
  compiler := { modules := { root := ⟨"/"⟩, modules := [] }, widgets := .empty }
  plugins := { root := ⟨"/"⟩ }
  execute := fun _ script _ =>
    let named (path : String) : Data :=
      .record [("snippet", .record [("key", .text "hook"), ("path", .text path)])]
    if script.head? = some 'r' then
      .ok { result := .record [("lxElements", .list [named "torn", named "whole"])] }
    else if script.head? = some 't' then .ok { result := .null, fatal := some "rip" }
    else .ok { result := .null }
  linker := { publicRoot := "/", internalRoot := ⟨"/"⟩ }

/-- The second reference is rejected for a key that no snippet of the page has. -/
theorem render_rejections_coat :
    ∃ (page : Page) (after : Tree) (log : List Begun) (accounts : List Account),
      coatRenderer.render coatTree { name := "coat", path := "/coat" } = .ok (page, after) ∧
      page.diagnostics =
        [{ topic := .execution, message := "rip", file := some "/coat/snippets/torn.js" },
          duplicateKey "hook"] ∧
      page.snippets.map Snippet.key = ["lx-1"] ∧
      log.flatMap Begun.renderedKeys = ["lx-1"] ∧
      accounts.map (fun account => account.snippet.key) = ["lx-1"] ∧
      ∀ account ∈ accounts, ∀ settlement ∈ account.settlements,
        Rejection settlement.key settlement.before settlement.after "hook" →
        ∃ visit assets, .snippet visit assets false ∈ log ∧ visit.key = "hook" := by
  have evaluated :
      (coatRenderer.render coatTree { name := "coat", path := "/coat" }).toOption.map
        (fun answer => (answer.1.diagnostics, answer.1.snippets.map Snippet.key)) =
      some ([{ topic := .execution, message := "rip", file := some "/coat/snippets/torn.js" },
        duplicateKey "hook"], ["lx-1"]) := by
    decide +kernel
  obtain ⟨⟨page, after⟩, done, same⟩ := toOption_map_eq_some.mp evaluated
  obtain ⟨noted, keys⟩ := Prod.mk.inj same
  dsimp only at noted keys
  obtain ⟨log, accounts, _, _, rendered, listed, settled⟩ :=
    render_rejections coatRenderer coatTree after _ page done
  refine ⟨page, after, log, accounts, done, noted, keys, rendered.trans keys, ?_, ?_⟩
  · rw [← keys, ← listed, List.map_map]
    rfl
  · intro account member settlement followed rejection
    obtain ⟨early, late, split, _, iff⟩ := (settled account member).2 settlement followed
    obtain ⟨_, visit, assets, answer, within, same, shown⟩ := (iff "hook").mp rejection
    have skipped : answer = false := by
      rw [keys] at shown
      cases answer with
      | false => rfl
      | true => exact absurd (shown.mpr rfl) (by decide)
    subst skipped
    exact ⟨visit, assets, split ▸ List.mem_append_left _ within, same⟩

end Renderer

end PageScript
