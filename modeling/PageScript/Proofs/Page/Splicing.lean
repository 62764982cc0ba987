import PageScript.Proofs.Page.Fragment
import PageScript.Proofs.Text

/-! Each child of a fragment is put in once, in the order of the places (`render_splices`). -/

open List

namespace PageScript

namespace Markup

variable {α : Type} (parts : List (Nat × α)) {left right : List (Nat × α)}

private theorem anchorIn_le {key : String} {start place : Nat} {pieces : List (Piece Unit)}
    (found : anchorIn key start pieces = some place) :
    place ≤ start + (pieces.flatMap Piece.source).length := by
  induction pieces generalizing start with
  | nil => cases found
  | cons piece rest ih =>
    rw [flatMap_cons, length_append, ← Nat.add_assoc]
    cases piece with
    | plain c => exact ih found
    | found tag _ =>
      rw [anchorIn] at found
      split at found
      · cases found
        exact Nat.le_add_right _ _
      · exact ih found

theorem anchor?_le {html : Text} {key : String} {place : Nat} (found : anchor? html key = some place) :
    place ≤ html.length := by
  have bound := anchorIn_le found
  rwa [Text.flatMap_source_cut, Nat.zero_add] at bound

/-- What stands at places, in the order of the places. -/
def inOrder (parts : List (Nat × α)) : List (Nat × α) :=
  parts.mergeSort fun left right => left.1 ≤ right.1

private theorem inOrder_sorted : (inOrder parts).Pairwise fun left right => left.1 ≤ right.1 := by
  refine (pairwise_mergeSort ?_ ?_ parts).imp of_decide_eq_true
  · intro left middle right
    simpa using Nat.le_trans
  · intro left right
    simpa using Nat.le_total left.1 right.1

private theorem inOrder_perm : (inOrder parts).Perm parts :=
  mergeSort_perm _ _

private theorem filter_inOrder (place : Nat) :
    (inOrder parts).filter (·.1 == place) = parts.filter (·.1 == place) := by
  have level : (parts.filter (·.1 == place)).Pairwise fun left right => decide (left.1 ≤ right.1) := by
    refine pairwise_of_forall_mem_list fun left first right second => ?_
    have here := eq_of_beq (mem_filter.mp first).2
    have there := eq_of_beq (mem_filter.mp second).2
    exact decide_eq_true (Nat.le_of_eq (here.trans there.symm))
  have kept : parts.filter (·.1 == place) <+ inOrder parts := by
    refine sublist_mergeSort ?_ ?_ level filter_sublist
    · intro left middle right
      simpa using Nat.le_trans
    · intro left right
      simpa using Nat.le_total left.1 right.1
  have within := kept.filter (·.1 == place)
  simp only [filter_filter, Bool.and_self] at within
  exact (within.eq_of_length ((inOrder_perm parts).filter _).length_eq.symm).symm

private theorem mem_iff_of_filter
    (same : ∀ place, left.filter (·.1 == place) = right.filter (·.1 == place)) (part : Nat × α) :
    part ∈ left ↔ part ∈ right := by
  have here := congrArg (part ∈ ·) (same part.1)
  simpa only [mem_filter, beq_self_eq_true, and_true, eq_iff_iff] using here

/-- A sorted list is determined by what it holds at each place. -/
theorem eq_of_sorted (sorted : left.Pairwise fun first second => first.1 ≤ second.1)
    (other : right.Pairwise fun first second => first.1 ≤ second.1)
    (same : ∀ place, left.filter (·.1 == place) = right.filter (·.1 == place)) : left = right := by
  induction left generalizing right with
  | nil =>
    refine (eq_nil_iff_forall_not_mem.mpr fun part held => ?_).symm
    cases (mem_iff_of_filter same part).mpr held
  | cons part rest ih =>
    obtain ⟨least, later⟩ := pairwise_cons.mp sorted
    have members := mem_iff_of_filter same
    cases right with
    | nil => cases (members part).mp mem_cons_self
    | cons first others =>
      obtain ⟨smallest, after⟩ := pairwise_cons.mp other
      -- Each of the two heads stands in the other list too, so they stand at one place.
      have level : first.1 = part.1 := by
        rcases mem_cons.mp ((members part).mp mem_cons_self) with rfl | second
        · rfl
        · rcases mem_cons.mp ((members first).mpr mem_cons_self) with rfl | third
          · rfl
          · exact Nat.le_antisymm (smallest part second) (least first third)
      have heads := same part.1
      simp only [filter_cons, level, beq_self_eq_true, if_true] at heads
      obtain ⟨rfl, _⟩ := List.cons.inj heads
      have tails (place : Nat) : rest.filter (·.1 == place) = others.filter (·.1 == place) := by
        have whole := same place
        rw [filter_cons, filter_cons] at whole
        split at whole
        · exact (List.cons.inj whole).2
        · exact whole
      rw [ih later after tails]

end Markup

namespace Fragment

open Markup

variable (fragment : Fragment) {inserted other : List Fragment}

/-- The fragments that are made from markup, and by insertion of such fragments. -/
inductive Built : Fragment → Prop
  | new (key : String) (html : Text) : Built { key, html }
  | insert {fragment child : Fragment} :
      Built fragment → Built child → Built (fragment.insert child)

def placeOf (fragment child : Fragment) : Nat :=
  (anchor? fragment.html child.key).getD fragment.html.length

theorem placeOf_le (fragment child : Fragment) : fragment.placeOf child ≤ fragment.html.length := by
  unfold placeOf
  cases found : anchor? fragment.html child.key with
  | none => exact Nat.le_refl _
  | some place => exact anchor?_le found

theorem Built.children {fragment : Fragment} (built : Built fragment) :
    ∀ child ∈ fragment.children, Built child.2 ∧ child.1 ≤ fragment.html.length := by
  induction built with
  | new key html => exact forall_mem_nil _
  | @insert fragment child _ inserted ih _ =>
    intro other member
    rcases mem_append.mp member with earlier | last
    · exact ih other earlier
    · rw [mem_singleton.mp last]
      exact ⟨inserted, fragment.placeOf_le child⟩

/-- A text is markup, of which `done` characters went before, cut at the places of fragments with the
rendering of each at its place. -/
inductive Spliced : Nat → Text → List (Nat × Fragment) → Text → Prop
  | last (done : Nat) (html : Text) : Spliced done html [] html
  | next {done place : Nat} {html text : Text} {rest : List (Nat × Fragment)} (cut : Text)
      (child : Fragment) (reached : place = done + cut.length) (others : Spliced place html rest text) :
      Spliced done (cut ++ html) ((place, child) :: rest) (cut ++ child.render ++ text)

private theorem spliced_splice {children : List (Nat × Fragment)}
    (sorted : children.Pairwise fun left right => left.1 ≤ right.1) {done : Nat} {html : Text}
    (within : ∀ child ∈ children, done ≤ child.1 ∧ child.1 ≤ done + html.length) :
    Spliced done html children
      (splice done html (children.map fun child => (child.1, child.2.render))) := by
  induction children generalizing done html with
  | nil => exact .last done html
  | cons first rest ih =>
    obtain ⟨place, child⟩ := first
    obtain ⟨least, later⟩ := pairwise_cons.mp sorted
    obtain ⟨⟨reached, short⟩, others⟩ := forall_mem_cons.mp within
    obtain ⟨cut, left, rfl, length⟩ : ∃ cut left, html = cut ++ left ∧ cut.length = place - done :=
      ⟨_, _, (take_append_drop (place - done) html).symm, by rw [length_take]; omega⟩
    rw [length_append] at others
    rw [map_cons, splice, ← length, take_left, drop_left]
    refine .next cut child (by omega) (ih later fun other member => ?_)
    exact ⟨least other member, by have := others other member; omega⟩

private theorem renderAll_eq (children : List (Nat × Fragment)) :
    renderAll children = children.map fun child => (child.1, child.2.render) := by
  induction children with
  | nil => rfl
  | cons child rest ih => rw [renderAll, ih, map_cons]

private theorem render_eq : fragment.render =
      splice 0 fragment.html ((inOrder fragment.children).map fun child => (child.1, child.2.render)) := by
  cases fragment
  rw [render, renderAll_eq, inOrder]
  exact congrArg _ (map_mergeSort (s := fun left right : Nat × Text => decide (left.1 ≤ right.1))
    (f := fun child : Nat × Fragment => (child.1, child.2.render)) fun _ _ _ _ => rfl).symm

private theorem byteLength_render :
    Text.byteLength fragment.render = (fragment.owned.map fun own => Text.byteLength own.2).sum := by
  rw [← marked_text, byteLength_of_marked fragment.marked_perm]

theorem foldl_insert (inserted : List Fragment) : inserted.foldl insert fragment = { fragment with
      children := fragment.children ++ inserted.map fun child => (fragment.placeOf child, child) } := by
  induction inserted generalizing fragment with
  | nil =>
    cases fragment
    rw [foldl_nil, map_nil, append_nil]
  | cons child rest ih =>
    rw [foldl_cons, ih, map_cons, append_cons]
    rfl

private theorem filter_insertions {fragment : Fragment}
    (perm : other.Perm inserted) (apart : (inserted.map fragment.placeOf).Nodup) (place : Nat) :
    (other.map fun child => (fragment.placeOf child, child)).filter (·.1 == place) =
      (inserted.map fun child => (fragment.placeOf child, child)).filter (·.1 == place) := by
  -- No two of them stand at the place, so there is one order only.
  have single {children : List Fragment} (distinct : (children.map fragment.placeOf).Nodup) :
      ((children.map fun child => (fragment.placeOf child, child)).filter (·.1 == place)).Pairwise
        fun _ _ => False := by
    rw [filter_map, pairwise_map]
    refine Pairwise.imp_of_mem (fun first second differ => ?_)
      (Pairwise.filter _ (pairwise_map.mp distinct))
    have here := (mem_filter.mp first).2
    have there := (mem_filter.mp second).2
    simp only [Function.comp_apply, beq_iff_eq] at here there
    exact differ (here.trans there.symm)
  refine Perm.eq_of_pairwise (fun _ _ _ _ never => never.elim) (single ?_) (single apart)
    ((perm.map _).filter _)
  exact (perm.map _).nodup_iff.mpr apart

private theorem render_foldl_insert {fragment : Fragment}
    (perm : other.Perm inserted) (apart : (inserted.map fragment.placeOf).Nodup) :
    (other.foldl insert fragment).render = (inserted.foldl insert fragment).render := by
  rw [render_eq, render_eq, foldl_insert, foldl_insert]
  dsimp only
  rw [eq_of_sorted (inOrder_sorted _) (inOrder_sorted _) fun place => ?_]
  rw [filter_inOrder, filter_inOrder, filter_append, filter_append, filter_insertions perm apart]

/-- A fragment's markup is cut at the places of its children with each of them put in once, those at one
place as they were inserted. So nothing is lost or repeated, each place is one between characters of the
markup, and children at different places may be inserted in any order. -/
theorem render_splices {fragment : Fragment} (built : Built fragment) :
    (∃ ordered : List (Nat × Fragment), ordered.Perm fragment.children ∧
        (ordered.Pairwise fun left right => left.1 ≤ right.1) ∧
        (∀ place, ordered.filter (·.1 == place) = fragment.children.filter (·.1 == place)) ∧
        Spliced 0 fragment.html ordered fragment.render) ∧
      Text.byteLength fragment.render = (fragment.owned.map fun own => Text.byteLength own.2).sum ∧
      (∀ child ∈ fragment.children, Built child.2 ∧ child.1 ≤ fragment.html.length ∧
        Text.charsAt? (Text.byteLength (fragment.html.take child.1)) fragment.html = some child.1) ∧
      ∀ inserted other : List Fragment, other.Perm inserted →
        (inserted.map fragment.placeOf).Nodup →
        (other.foldl insert fragment).render = (inserted.foldl insert fragment).render := by
  refine ⟨⟨inOrder fragment.children, inOrder_perm _, inOrder_sorted _, filter_inOrder _, ?_⟩,
    byteLength_render fragment, ?_, fun _ _ perm apart => render_foldl_insert perm apart⟩
  · rw [render_eq]
    refine spliced_splice (inOrder_sorted _) fun child member => ?_
    have bound := (built.children child ((inOrder_perm _).mem_iff.mp member)).2
    exact ⟨Nat.zero_le _, by omega⟩
  · intro child member
    obtain ⟨inner, bound⟩ := built.children child member
    refine ⟨inner, bound, ?_⟩
    have rest := Text.dropBytes?_append (fragment.html.take child.1) (fragment.html.drop child.1)
    rw [take_append_drop] at rest
    rw [Text.charsAt?, rest, Option.map_some, length_drop]
    exact congrArg some (Nat.sub_sub_self bound)

def nested : Fragment :=
  (({ key := "r", html := "<i id='é'></i><u b=k>".toList } : Fragment).insert
    { key := "k", html := ['1'] }).insert { key := "k", html := ['2'] }

theorem render_splices_nested :
    Built nested ∧ nested.render = "<i id='é'></i><u b=k>12".toList ∧
      ([{ key := "é", html := ['3'] }, { key := "k", html := ['4'] }].foldl insert nested).render =
        ([{ key := "k", html := ['4'] }, { key := "é", html := ['3'] }].foldl insert nested).render := by
  have built : Built nested := .insert (.insert (.new _ _) (.new _ _)) (.new _ _)
  refine ⟨built, ?_, (render_splices built).2.2.2 _ _ (.swap _ _ _) (by decide +kernel)⟩
  rw [render_eq, inOrder, mergeSort_of_pairwise (by decide +kernel)]
  decide +kernel

end Fragment

end PageScript
