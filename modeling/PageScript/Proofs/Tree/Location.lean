import PageScript.Proofs.Tree.Canonical

/-! Of the `..` that find no name to take back, normalising keeps one or none (`walk_normalize_iff`). -/

open List

namespace PageScript.Path

variable (place : List String) {parts : List Component}

/-- A step from a directory, given by its names from the innermost outwards. -/
def enter : List String → Component → List String
  | _, .root => []
  | place, .current => place
  | place, .parent => place.tail
  | place, .normal name => name :: place

def walk (place : List String) (parts : List Component) : List String :=
  parts.foldl enter place

/-- What components come to: how many directories they leave, and the names that they then enter, the
innermost first. -/
structure Route where
  up : Nat
  names : List String

namespace Route

def follow : Route → Component → Route
  | ⟨up, []⟩, .parent => ⟨up + 1, []⟩
  | ⟨up, _ :: names⟩, .parent => ⟨up, names⟩
  | ⟨up, names⟩, .normal name => ⟨up, name :: names⟩
  | route, _ => route

def reach (place : List String) (route : Route) : List String :=
  route.names ++ place.drop route.up

/-- The components that normalising has left of a route, in reverse. -/
def left (route : Route) : List Component :=
  route.names.map .normal ++ List.replicate (route.up % 2) .parent

private theorem foldl_follow {α : Type} {step : α → Component → α} {view : Route → α}
    (each : ∀ route part, part ≠ .root → step (view route) part = view (route.follow part))
    (below : ∀ part ∈ parts, part ≠ .root) (route : Route) :
    parts.foldl step (view route) = view (parts.foldl follow route) := by
  induction parts generalizing route with
  | nil => rfl
  | cons part rest ih =>
    obtain ⟨first, others⟩ := forall_mem_cons.mp below
    rw [foldl_cons, each route part first, ih others, foldl_cons]

private theorem enter_reach (route : Route) (part : Component) (below : part ≠ .root) :
    enter (route.reach place) part = (route.follow part).reach place := by
  obtain ⟨up, names⟩ := route
  cases part with
  | root => exact absurd rfl below
  | current => cases names <;> rfl
  | normal name => cases names <;> rfl
  | parent =>
    cases names with
    | nil => exact tail_drop
    | cons name names => rfl

theorem resolve_left {lead : List Component} (start : lead = [] ∨ lead = [.root]) (route : Route)
    (part : Component) (below : part ≠ .root) :
    resolve (route.left ++ lead) part = (route.follow part).left ++ lead := by
  obtain ⟨up, names⟩ := route
  cases part with
  | root => exact absurd rfl below
  | current => cases names <;> simp [resolve, follow]
  | normal name => cases names <;> simp [resolve, follow, left]
  | parent =>
    cases names with
    | cons name names => simp [resolve, follow, left]
    | nil =>
      -- the `..` of an odd number so far is taken back, and with an even number there is none
      rcases Nat.mod_two_eq_zero_or_one up with even | odd
      · have next : (up + 1) % 2 = 1 := by omega
        rcases start with rfl | rfl <;> simp [follow, left, even, next, resolve]
      · have next : (up + 1) % 2 = 0 := by omega
        rcases start with rfl | rfl <;> simp [follow, left, odd, next, resolve]

private theorem walk_left (route : Route) :
    walk place route.left.reverse = route.names ++ place.drop (route.up % 2) := by
  have climbed (count : Nat) : walk place (List.replicate count .parent) = place.drop count := by
    induction count with
    | zero => rfl
    | succ count ih =>
      rw [replicate_succ', walk, foldl_append]
      exact (congrArg List.tail ih).trans tail_drop
  rw [left, reverse_append, reverse_replicate, walk, foldl_append]
  change List.foldl enter (walk place _) _ = _
  rw [climbed, foldl_reverse, foldr_map]
  exact foldr_cons_eq_append'

end Route

private theorem mem_foldl_resolve {parts done : List Component} {part : Component}
    (member : part ∈ parts.foldl resolve done) : part ∈ done ∨ part ∈ parts := by
  induction parts generalizing done with
  | nil => exact .inl member
  | cons first rest ih =>
    have step : ∀ part ∈ resolve done first, part ∈ done ∨ part = first := by
      intro part within
      unfold resolve at within
      split at within <;> grind
    rw [mem_cons]
    rcases ih member with before | later
    · exact (step part before).imp_right .inl
    · exact .inr (.inr later)

private theorem walk_components (path : Path) :
    walk place path.components = walk (if path.isAbsolute then [] else place) path.body := by
  unfold components body
  dsimp only
  split
  · rfl
  · split <;> rfl

private theorem walk_relative (regular : ∀ part ∈ parts, Regular part) :
    walk place (ofComponents parts).components = walk place parts := by
  cases parts with
  | nil => rfl
  | cons first rest =>
    have read := (regular first mem_cons_self).read
    have cut := Tree.splitOn_textOf fun part member =>
      ⟨(regular part member).ne_root, (regular part member).whole⟩
    have relative : (textOf (first :: rest)).head? ≠ some '/' := by
      intro slash
      obtain ⟨tail, same⟩ := head?_eq_some_iff.mp slash
      rw [same, ← nil_append ('/' :: tail), Text.splitOn_append not_mem_nil] at cut
      rw [← (List.cons.inj cut).1] at read
      cases read
    rw [walk_components, body, isAbsolute, ofComponents, String.toList_ofList, cut,
      filterMap_component? regular, if_neg (by simpa using relative)]

def route (path : Path) : Route :=
  path.body.foldl Route.follow ⟨0, []⟩

/-- A path and its normal form lead from a directory to the same place exactly if the path is absolute,
leaves at most one directory, or stops at the root in both forms. -/
theorem walk_normalize_iff (path : Path) :
    walk place path.normalize.components = walk place path.components ↔
      path.isAbsolute = true ∨ path.route.up ≤ 1 ∨ place.length ≤ path.route.up % 2 := by
  have below : ∀ part ∈ path.body, part ≠ .root := fun _ member => (regular_of_mem_body member).ne_root
  have walked : walk place path.components =
      path.route.reach (if path.isAbsolute then [] else place) :=
    (walk_components place path).trans (Route.foldl_follow (Route.enter_reach _) below ⟨0, []⟩)
  have normal (lead : List Component) (start : lead = [] ∨ lead = [.root]) :
      path.body.foldl resolve lead = path.route.left ++ lead :=
    Route.foldl_follow (Route.resolve_left start) below ⟨0, []⟩
  have kept : ∀ part ∈ path.route.left.reverse, Regular part := by
    intro part member
    rw [List.mem_reverse, ← List.append_nil path.route.left, ← normal [] (.inl rfl)] at member
    exact regular_of_mem_body ((mem_foldl_resolve member).resolve_left List.not_mem_nil)
  have normalized : walk place path.normalize.components =
      path.route.names ++ (if path.isAbsolute then [] else place).drop (path.route.up % 2) := by
    rw [← Route.walk_left]
    cases absolute : path.isAbsolute with
    | true =>
        have same : path.normalize = ofComponents (.root :: path.route.left.reverse) := by
          have turned := congrArg List.reverse (normal [.root] (.inr rfl))
          rw [List.reverse_append] at turned
          simp only [normalize, components, absolute]
          exact congrArg ofComponents turned
        rw [same, components_ofComponents kept]
        rfl
    | false =>
        have same : path.normalize = ofComponents path.route.left.reverse := by
          rw [← List.append_nil path.route.left, ← normal [] (.inl rfl)]
          simp only [normalize, components, absolute, Bool.false_eq_true, if_false]
          split <;> rfl
        rw [same, walk_relative place kept]
        rfl
  rw [walked, normalized, Route.reach, List.append_cancel_left_eq]
  cases path.isAbsolute with
  | true => simp
  | false =>
      simp only [Bool.false_eq_true, if_false, false_or, List.drop_eq_drop_iff]
      omega

end PageScript.Path
