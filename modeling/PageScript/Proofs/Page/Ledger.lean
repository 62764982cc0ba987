import PageScript.Proofs.Page.Lineage
import PageScript.Proofs.Page.Steps

/-!
The ledger of a rendering: what was begun, in order, with the states that the rendering went through
(`Renderer.Told`, `Renderer.Records`), and what it comes to (`Renderer.Tale`).
-/

open List

namespace PageScript

open Lineage RenderState

variable {first second third before middle after : RenderState} {visit : Visit}
  {inner : Visit → Rendering Bool} {renderer : Renderer} {parent answer : Option String} {page : Page}

namespace Renderer

/-! ### What is written down -/

/-- What a rendering began: a plugin, with the key of its root snippet if that was rendered, or a snippet,
with the assets that were collected from its scripts and whether it was rendered. -/
inductive Begun where
  | plugin (owner : Plugin) (root : Option String)
  | snippet (visit : Visit) (assets : List Asset) (rendered : Bool)

/-- What became of a reference: the key of the snippet it led to, if it was not skipped, and how far
rendering had come before and after it was followed. -/
structure Settlement where
  pointer : Pointer
  key : Option String
  before : RenderState
  after : RenderState

/-- The account of a rendered snippet: the state in which it was visited, what its scripts handed back, and
what became of the references in it. -/
structure Account where
  visit : Visit
  before : RenderState
  result : SnippetResult
  js : Text
  settlements : List Settlement

namespace Account

def snippet (account : Account) : Snippet :=
  account.visit.snippet account.result account.js

def entry (account : Account) : SnippetPayload :=
  account.result.entry account.js (account.settlements.filterMap Settlement.key)

def skipped (account : Account) : List Settlement :=
  account.settlements.filter (·.key.isNone)

end Account

/-- How visits are told: a snippet is visited in a state; whether it is rendered, the state after that, what
was begun meanwhile, and the accounts of what was rendered. -/
abbrev Telling := Visit → RenderState → Bool → RenderState → List Begun → List Account → Prop

variable {told : Telling} {left right log : List Begun} {settlements : List Settlement}
  {accounts : List Account} {settlement : Settlement} {forest : List Lineage} {lead : Landing}

def leadLog (lead : Landing) (answer : Option String) : List Begun :=
  lead.owner.toList.map (Begun.plugin · answer)

/-- A lead is entered: the key asked for is taken already, or one is taken now and the snippet is visited
under it. -/
inductive Enters (told : Telling) (lead : Landing) (before : RenderState) :
    Option String → RenderState → List Begun → List Account → Prop
  | taken {after : RenderState}
      (claimed : (lead.begun before).claimKey lead.requested = (none, after)) :
      Enters told lead before none after (leadLog lead none) []
  | visited {key : String} {middle later : RenderState} {rendered : Bool} {answer : Option String}
      {log : List Begun} {accounts : List Account}
      (claimed : (lead.begun before).claimKey lead.requested = (some key, middle))
      (visits : told (lead.child key) middle rendered later log accounts)
      (answers : answer = if rendered then some key else none) :
      Enters told lead before answer (lead.ended answer later) (leadLog lead answer ++ log) accounts

/-- A reference is followed where it leads, or it is refused with a diagnostic. -/
inductive Follows (renderer : Renderer) (told : Telling) (visit : Visit) (pointer : Pointer)
    (before : RenderState) : Option String → RenderState → List Begun → List Account → Prop
  | refused {message : String} (unled : renderer.lead visit before.tree pointer = .error message) :
      Follows renderer told visit pointer before none
        (before.report .resolution (some visit.file) message) [] []
  | entered {lead : Landing} {key : Option String} {after : RenderState} {log : List Begun}
      {accounts : List Account} (leads : renderer.lead visit before.tree pointer = .ok lead)
      (enters : Enters told lead before key after log accounts) :
      Follows renderer told visit pointer before key after log accounts

/-- References are followed one after another. -/
inductive Settles (renderer : Renderer) (inner : Visit → Rendering Bool) (told : Telling) (visit : Visit) :
    RenderState → List Settlement → RenderState → List Begun → List Account → Prop
  | nil (state : RenderState) : Settles renderer inner told visit state [] state [] []
  | cons (settlement : Settlement) {rest : List Settlement} {final : RenderState}
      {log more : List Begun} {accounts others : List Account}
      (followed : renderer.follow inner visit settlement.pointer settlement.before =
        .ok (settlement.key, settlement.after))
      (follows : Follows renderer told visit settlement.pointer settlement.before settlement.key
        settlement.after log accounts)
      (settles : Settles renderer inner told visit settlement.after rest final more others) :
      Settles renderer inner told visit settlement.before (settlement :: rest) final (log ++ more)
        (accounts ++ others)

/-- A snippet is visited: its scripts are run, and unless it is skipped, all references that they hand back
are followed. -/
inductive Visits (renderer : Renderer) (inner : Visit → Rendering Bool) (told : Telling) (visit : Visit)
    (before : RenderState) : Bool → RenderState → List Begun → List Account → Prop
  | skipped {assets : List Asset} {after : RenderState}
      (runs : Runs renderer (visit.entered before.tree) before none assets after) :
      Visits renderer inner told visit before false after [.snippet visit assets false] []
  | rendered (account : Account) {assets : List Asset} {middle later : RenderState} {log : List Begun}
      {accounts : List Account} (entered : account.visit = visit.entered before.tree)
      (begun : account.before = before)
      (runs : Runs renderer account.visit before (some (account.result, account.js)) assets middle)
      (settles : Settles renderer inner told account.visit
        (addSnippet account.visit account.result account.js middle) account.settlements later log accounts)
      (pointers : account.settlements.map Settlement.pointer = account.result.pointers) :
      Visits renderer inner told visit before true (putEntry account.visit account.entry later)
        (.snippet visit assets true :: log) (account :: accounts)

/-- The telling of the visits by which snippets are rendered. -/
def Told (renderer : Renderer) : Nat → Telling
  | 0 => fun _ _ _ _ _ _ => False
  | fuel + 1 => Visits renderer (renderer.renderSnippet fuel) (renderer.Told fuel)

/-- A page was rendered from an entry, and this was begun and rendered on the way. -/
inductive Records (renderer : Renderer) (tree : Tree) (entry : PluginEntry) :
    Page → List Begun → List Account → Prop
  | intro {plugin : Plugin} {root : String} {state after : RenderState} {page : Page} {log : List Begun}
      {accounts : List Account} (loaded : Plugin.load tree renderer.hooks entry = .ok plugin)
      (enters : Enters (renderer.Told (renderer.fuel tree))
        (.ofPlugin plugin { target := plugin.name } none [] []) { tree } (some root) state log accounts)
      (assembled : renderer.assemble plugin root state = .ok (page, after)) :
      Records renderer tree entry page log accounts

/-- An account is that of a rendering: the scripts of the snippet handed back its result, and all references
in it were followed one after another. -/
structure Account.Sound (renderer : Renderer) (account : Account) : Prop where
  pointers : account.settlements.map Settlement.pointer = account.result.pointers
  settled : ∃ assets middle fuel after log accounts,
    Runs renderer account.visit account.before (some (account.result, account.js)) assets middle ∧
    Settles renderer (renderer.renderSnippet fuel) (renderer.Told fuel) account.visit
      (addSnippet account.visit account.result account.js middle) account.settlements after log accounts

/-! ### Everything is written down -/

def Tells (inner : Visit → Rendering Bool) (told : Telling) : Prop :=
  ∀ visit before rendered after, inner visit before = .ok (rendered, after) →
    ∃ log accounts, told visit before rendered after log accounts

section

variable (tells : Tells inner told)

include tells

private theorem enter_enters (done : enter inner lead before = .ok (answer, after)) :
    ∃ log accounts, Enters told lead before answer after log accounts := by
  rw [enter, Rendering.modify_bind, claimKey_bind] at done
  cases claimed : (lead.begun before).claimKey lead.requested with
  | mk key middle =>
    rw [claimed] at done
    cases key with
    | none =>
      cases done
      exact ⟨_, _, .taken claimed⟩
    | some key =>
      obtain ⟨rendered, later, visited, done⟩ := Rendering.bind_eq_ok.mp done
      cases done
      obtain ⟨log, accounts, visits⟩ := tells _ _ _ _ visited
      exact ⟨_, _, .visited claimed visits rfl⟩

theorem follow_follows {pointer : Pointer}
    (done : renderer.follow inner visit pointer before = .ok (answer, after)) :
    ∃ log accounts, Follows renderer told visit pointer before answer after log accounts := by
  rw [follow_apply] at done
  cases leads : renderer.lead visit before.tree pointer with
  | error message =>
    rw [leads] at done
    cases done
    exact ⟨_, _, .refused leads⟩
  | ok lead =>
    rw [leads] at done
    obtain ⟨log, accounts, enters⟩ := enter_enters tells done
    exact ⟨log, accounts, .entered leads enters⟩

private theorem followAll_settles {pointers : List Pointer} {keys : List String}
    (done : renderer.followAll inner visit pointers before = .ok (keys, after)) :
    ∃ settlements log accounts, Settles renderer inner told visit before settlements after log accounts ∧
      settlements.map Settlement.pointer = pointers ∧ keys = settlements.filterMap Settlement.key := by
  induction pointers generalizing before keys with
  | nil =>
    cases done
    exact ⟨[], [], [], .nil _, rfl, rfl⟩
  | cons pointer rest ih =>
    obtain ⟨key, middle, followed, done⟩ := Rendering.bind_eq_ok.mp done
    obtain ⟨others, later, remaining, done⟩ := Rendering.bind_eq_ok.mp done
    cases done
    obtain ⟨log, accounts, follows⟩ := follow_follows tells followed
    obtain ⟨settlements, more, others, settles, rfl, rfl⟩ := ih remaining
    refine ⟨_, _, _, .cons ⟨pointer, key, before, middle⟩ followed follows settles, rfl, ?_⟩
    rw [filterMap_cons]
    cases key <;> rfl

private theorem renderVisit_visits {rendered : Bool}
    (done : renderer.renderVisit inner visit before = .ok (rendered, after)) :
    ∃ log accounts, Visits renderer inner told visit before rendered after log accounts := by
  replace done := Rendering.of_get done
  obtain ⟨handed, middle, ran, done⟩ := Rendering.bind_eq_ok.mp done
  obtain ⟨⟨assets, runs⟩, _⟩ := runScripts_runs ran
  cases handed with
  | none =>
    cases done
    exact ⟨_, _, .skipped runs⟩
  | some handed =>
    obtain ⟨result, js⟩ := handed
    obtain ⟨_, later, inside, done⟩ := Rendering.bind_eq_ok.mp done
    cases done
    rw [renderInside_eq, Rendering.modify_bind] at inside
    obtain ⟨keys, final, followed, stored⟩ := Rendering.bind_eq_ok.mp inside
    cases stored
    obtain ⟨settlements, log, accounts, settles, pointers, rfl⟩ := followAll_settles tells followed
    exact ⟨_, _, .rendered ⟨_, before, result, js, settlements⟩ rfl rfl runs settles pointers⟩

end

theorem renderSnippet_told (renderer : Renderer) (fuel : Nat) :
    Tells (renderer.renderSnippet fuel) (renderer.Told fuel) := by
  induction fuel with
  | zero =>
    intro visit before rendered after done
    cases done
  | succ fuel ih =>
    intro visit before rendered after done
    exact renderVisit_visits ih done

theorem render_records {tree after : Tree} {entry : PluginEntry}
    (done : renderer.render tree entry = .ok (page, after)) :
    ∃ log accounts, Records renderer tree entry page log accounts := by
  obtain ⟨plugin, loaded, done⟩ := PageScript.bind_eq_ok.mp done
  obtain ⟨⟨page, final⟩, rendered, done⟩ := PageScript.bind_eq_ok.mp done
  cases done
  replace rendered := Rendering.of_get rendered
  obtain ⟨root, state, begun, ended⟩ := Rendering.bind_eq_ok.mp rendered
  rw [renderPlugin_eq] at begun
  obtain ⟨log, accounts, enters⟩ := enter_enters (renderer.renderSnippet_told _) begun
  cases root with
  | none => cases ended
  | some root => exact ⟨log, accounts, .intro loaded enters ended⟩

/-! ### A rendering is written down in one way -/

/-- A telling in which a visit from a state is told in one way. -/
def Fixed (told : Telling) : Prop :=
  ∀ ⦃visit before rendered after log accounts rendered' after' log' accounts'⦄,
    told visit before rendered after log accounts → told visit before rendered' after' log' accounts' →
    rendered = rendered' ∧ after = after' ∧ log = log' ∧ accounts = accounts'

section

variable {answer' : Option String} {after' : RenderState} {log' : List Begun} {accounts' : List Account}
  (fixed : Fixed told)

include fixed

theorem Enters.same (enters : Enters told lead before answer after log accounts)
    (others : Enters told lead before answer' after' log' accounts') :
    answer = answer' ∧ after = after' ∧ log = log' ∧ accounts = accounts' := by
  cases enters with
  | taken claimed =>
    cases others with
    | taken claimed' =>
      cases claimed.symm.trans claimed'
      exact ⟨rfl, rfl, rfl, rfl⟩
    | visited claimed' => cases claimed.symm.trans claimed'
  | visited claimed visits answers =>
    cases others with
    | taken claimed' => cases claimed.symm.trans claimed'
    | visited claimed' visits' answers' =>
      cases claimed.symm.trans claimed'
      obtain ⟨rfl, rfl, rfl, rfl⟩ := fixed visits visits'
      obtain rfl := answers.trans answers'.symm
      exact ⟨rfl, rfl, rfl, rfl⟩

theorem Follows.same {pointer : Pointer}
    (follows : Follows renderer told visit pointer before answer after log accounts)
    (others : Follows renderer told visit pointer before answer' after' log' accounts') :
    answer = answer' ∧ after = after' ∧ log = log' ∧ accounts = accounts' := by
  cases follows with
  | refused unled =>
    cases others with
    | refused unled' =>
      cases unled.symm.trans unled'
      exact ⟨rfl, rfl, rfl, rfl⟩
    | entered leads => cases unled.symm.trans leads
  | entered leads enters =>
    cases others with
    | refused unled => cases unled.symm.trans leads
    | entered leads' enters' =>
      cases leads.symm.trans leads'
      exact enters.same fixed enters'

theorem Settles.same {settlements' : List Settlement}
    (settles : Settles renderer inner told visit before settlements after log accounts)
    (others : Settles renderer inner told visit before settlements' after' log' accounts')
    (pointers : settlements.map Settlement.pointer = settlements'.map Settlement.pointer) :
    settlements = settlements' ∧ after = after' ∧ log = log' ∧ accounts = accounts' := by
  induction settles generalizing settlements' log' accounts' with
  | nil state =>
    cases others with
    | nil => exact ⟨rfl, rfl, rfl, rfl⟩
    | cons => cases pointers
  | @cons settlement rest _ _ _ _ _ followed follows settles ih =>
    generalize start : settlement.before = before at others
    cases others with
    | nil => cases pointers
    | cons settlement' followed' follows' settles' =>
      obtain ⟨pointer, key, _, middle⟩ := settlement
      obtain ⟨_, key', _, middle'⟩ := settlement'
      obtain ⟨rfl, later⟩ := cons.inj pointers
      cases start
      obtain ⟨rfl, rfl, rfl, rfl⟩ := follows.same fixed follows'
      obtain ⟨rfl, rfl, rfl, rfl⟩ := ih settles' later
      exact ⟨rfl, rfl, rfl, rfl⟩

theorem Visits.same {rendered rendered' : Bool}
    (visits : Visits renderer inner told visit before rendered after log accounts)
    (others : Visits renderer inner told visit before rendered' after' log' accounts') :
    rendered = rendered' ∧ after = after' ∧ log = log' ∧ accounts = accounts' := by
  cases visits with
  | skipped runs =>
    cases others with
    | skipped runs' =>
      obtain ⟨_, rfl, rfl⟩ := runs.same runs'
      exact ⟨rfl, rfl, rfl, rfl⟩
    | rendered account entered _ runs' =>
      rw [entered] at runs'
      cases (runs.same runs').1
  | rendered account entered begun runs settles pointers =>
    cases others with
    | skipped runs' =>
      rw [entered] at runs
      cases (runs.same runs').1
    | rendered account' entered' begun' runs' settles' pointers' =>
      obtain ⟨_, _, result, js, settlements⟩ := account
      obtain ⟨_, _, result', js', settlements'⟩ := account'
      cases entered.trans entered'.symm
      cases begun.trans begun'.symm
      obtain ⟨handed, rfl, rfl⟩ := runs.same runs'
      cases handed
      obtain ⟨rfl, rfl, rfl, rfl⟩ := settles.same fixed settles' (pointers.trans pointers'.symm)
      exact ⟨rfl, rfl, rfl, rfl⟩

end

private theorem told_fixed (renderer : Renderer) (fuel : Nat) : Fixed (renderer.Told fuel) := by
  induction fuel with
  | zero =>
    intro _ _ _ _ _ _ _ _ _ _ visits
    cases visits
  | succ fuel ih =>
    intro _ _ _ _ _ _ _ _ _ _ visits others
    exact visits.same ih others

/-- The ledger and the accounts of a page are determined by the run. -/
theorem Records.iff {tree : Tree} {entry : PluginEntry}
    (records : Records renderer tree entry page log accounts) (log' : List Begun)
    (accounts' : List Account) :
    Records renderer tree entry page log' accounts' ↔ log' = log ∧ accounts' = accounts := by
  constructor
  · rintro ⟨loaded', enters', _⟩
    obtain ⟨loaded, enters, _⟩ := records
    cases loaded.symm.trans loaded'
    obtain ⟨_, _, rfl, rfl⟩ := enters.same (renderer.told_fixed _) enters'
    exact ⟨rfl, rfl⟩
  · rintro ⟨rfl, rfl⟩
    exact records

end Renderer

end PageScript
