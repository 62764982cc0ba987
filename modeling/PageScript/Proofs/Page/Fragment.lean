import Mathlib.Algebra.Ring.Nat
import PageScript.Page.Fragment
import PageScript.Proofs.Lists

/-! What a composed fragment consists of, each character marked with the key of its fragment. -/

open List

namespace PageScript

open Text

namespace Markup

variable {α β : Type}

theorem map_splice (change : α → β) (done : Nat) (html : List α) (parts : List (Nat × List α)) :
    (splice done html parts).map change =
      splice done (html.map change) (parts.map fun part => (part.1, part.2.map change)) := by
  induction parts generalizing done html with
  | nil => rfl
  | cons part rest ih =>
    obtain ⟨place, text⟩ := part
    rw [map_cons, splice, splice, map_append, map_append, ih, map_take,
      map_drop]

private theorem splice_perm (done : Nat) (html : List α) (parts : List (Nat × List α)) :
    (splice done html parts).Perm (html ++ parts.flatMap Prod.snd) := by
  induction parts generalizing done html with
  | nil =>
    rw [splice, flatMap_nil, append_nil]
  | cons part rest ih =>
    obtain ⟨place, text⟩ := part
    have inner := ih place (html.drop (place - done))
    have moved := perm_append_comm_assoc text (html.drop (place - done))
      (rest.flatMap Prod.snd)
    have whole := ((inner.append_left text).trans moved).append_left (html.take (place - done))
    rw [← append_assoc (html.take _) (html.drop _), take_append_drop] at whole
    rw [splice, flatMap_cons, append_assoc]
    exact whole

private theorem filter_splice_of_parts (keep : α → Bool) (done : Nat) (html : List α)
    (parts : List (Nat × List α)) (free : ∀ part ∈ parts, part.2.filter keep = []) :
    (splice done html parts).filter keep = html.filter keep := by
  induction parts generalizing done html with
  | nil => rfl
  | cons part rest ih =>
    obtain ⟨place, text⟩ := part
    have others : ∀ other ∈ rest, other.2.filter keep = [] := fun other member =>
      free other (mem_cons_of_mem _ member)
    have own : text.filter keep = [] := free (place, text) mem_cons_self
    rw [splice, filter_append, filter_append, own, ih _ _ others, append_nil,
      ← filter_append, take_append_drop]

private theorem filter_splice_of_html (keep : α → Bool) (done : Nat) (html : List α)
    (parts : List (Nat × List α)) (free : html.filter keep = []) :
    (splice done html parts).filter keep = parts.flatMap fun part => part.2.filter keep := by
  induction parts generalizing done html with
  | nil => exact free
  | cons part rest ih =>
    obtain ⟨place, text⟩ := part
    rw [← take_append_drop (place - done) html, filter_append,
      append_eq_nil_iff] at free
    rw [splice, filter_append, filter_append, free.1, ih _ _ free.2, nil_append,
      flatMap_cons]

private theorem byteLength_of_perm {left right : Text} (perm : left.Perm right) :
    byteLength left = byteLength right := by
  induction perm with
  | nil => rfl
  | cons c _ ih => rw [byteLength_cons, byteLength_cons, ih]
  | swap c d rest => simp only [byteLength_cons, Nat.add_left_comm]
  | trans _ _ first second => exact first.trans second

theorem byteLength_of_marked {marked : List (String × Char)} {parts : List (String × Text)}
    (perm : marked.Perm (parts.flatMap fun part => part.2.map (part.1, ·))) :
    byteLength (marked.map Prod.snd) = (parts.map fun part => byteLength part.2).sum := by
  rw [byteLength_of_perm (perm.map Prod.snd)]
  clear perm
  induction parts with
  | nil => rfl
  | cons part rest ih =>
    rw [flatMap_cons, map_append, byteLength_append, ih, map_cons, sum_cons, map_map]
    exact congrArg (byteLength · + _) (map_id part.2)

end Markup

namespace Fragment

mutual

/-- The keys of a fragment and of all fragments in it, with their own markup. -/
def owned : Fragment → List (String × Text)
  | ⟨key, html, children⟩ => (key, html) :: ownedAll children

def ownedAll : List (Nat × Fragment) → List (String × Text)
  | [] => []
  | (_, fragment) :: rest => owned fragment ++ ownedAll rest

end

mutual

/-- The markup of a fragment with everything in it, each character with the key of the fragment whose
own markup it is. -/
def marked : Fragment → List (String × Char)
  | ⟨key, html, children⟩ =>
      Markup.splice 0 (html.map (key, ·))
        ((markedAll children).mergeSort fun left right => left.1 ≤ right.1)

def markedAll : List (Nat × Fragment) → List (Nat × List (String × Char))
  | [] => []
  | (place, fragment) :: rest => (place, marked fragment) :: markedAll rest

end

mutual

theorem marked_text : (fragment : Fragment) → fragment.marked.map Prod.snd = fragment.render
  | ⟨key, html, children⟩ => by
      have own : (html.map (key, ·)).map Prod.snd = html := by
        rw [map_map]
        exact map_id html
      have parts := map_mergeSort
        (r := fun left right : Nat × List (String × Char) => decide (left.1 ≤ right.1))
        (s := fun left right : Nat × Text => decide (left.1 ≤ right.1))
        (f := fun part => (part.1, part.2.map Prod.snd)) (l := markedAll children)
        (fun _ _ _ _ => rfl)
      rw [marked, render, Markup.map_splice, own, parts, markedAll_text children]

theorem markedAll_text : (children : List (Nat × Fragment)) →
    ((markedAll children).map fun part => (part.1, part.2.map Prod.snd)) = renderAll children
  | [] => rfl
  | (place, fragment) :: rest => by
      rw [markedAll, renderAll, map_cons, marked_text fragment, markedAll_text rest]

end

mutual

theorem marked_perm : (fragment : Fragment) →
    fragment.marked.Perm (fragment.owned.flatMap fun own => own.2.map (own.1, ·))
  | ⟨key, html, children⟩ => by
      have sorted := mergeSort_perm (markedAll children) fun left right => left.1 ≤ right.1
      have parts := (sorted.flatMap_right Prod.snd).trans (markedAll_perm children)
      rw [marked, owned, flatMap_cons]
      exact (Markup.splice_perm _ _ _).trans (parts.append_left _)

theorem markedAll_perm : (children : List (Nat × Fragment)) →
    ((markedAll children).flatMap Prod.snd).Perm
      ((ownedAll children).flatMap fun own => own.2.map (own.1, ·))
  | [] => .nil
  | (place, fragment) :: rest => by
      rw [markedAll, ownedAll, flatMap_cons, flatMap_append]
      exact (marked_perm fragment).append (markedAll_perm rest)

end

private theorem filter_marked_of_absent {fragment : Fragment} {key : String}
    (absent : key ∉ fragment.owned.map Prod.fst) : fragment.marked.filter (·.1 == key) = [] := by
  rw [filter_eq_nil_iff]
  intro entry member same
  obtain ⟨own, within, marks⟩ := mem_flatMap.mp (fragment.marked_perm.mem_iff.mp member)
  obtain ⟨_, _, rfl⟩ := mem_map.mp marks
  exact absent (mem_map.mpr ⟨own, within, by simpa using same⟩)

private theorem filter_markedAll_of_absent {children : List (Nat × Fragment)} {key : String}
    (absent : key ∉ (ownedAll children).map Prod.fst) :
    ∀ part ∈ markedAll children, part.2.filter (·.1 == key) = [] := by
  induction children with
  | nil =>
    intro part member
    cases member
  | cons child rest ih =>
    obtain ⟨place, fragment⟩ := child
    rw [ownedAll, map_append, mem_append, not_or] at absent
    intro part member
    rcases mem_cons.mp member with same | later
    · rw [same]
      exact filter_marked_of_absent absent.1
    · exact ih absent.2 part later

mutual

theorem filter_marked : (fragment : Fragment) → (fragment.owned.map Prod.fst).Nodup →
    ∀ own ∈ fragment.owned,
      fragment.marked.filter (·.1 == own.1) = own.2.map (own.1, ·)
  | ⟨key, html, children⟩, distinct, own, member => by
      rw [owned, map_cons, nodup_cons] at distinct
      rw [owned] at member
      rw [marked]
      rcases mem_cons.mp member with rfl | below
      · -- the other fragments have other keys
        have free := filter_markedAll_of_absent distinct.1
        rw [Markup.filter_splice_of_parts _ _ _ _ fun part within =>
          free part (mem_mergeSort.mp within)]
        exact filter_eq_self.mpr fun entry within => by
          obtain ⟨_, _, rfl⟩ := mem_map.mp within
          exact beq_self_eq_true key
      · have other : key ≠ own.1 := by
          rintro rfl
          exact distinct.1 (mem_map.mpr ⟨own, below, rfl⟩)
        have free : (html.map (key, ·)).filter (·.1 == own.1) = [] := by
          rw [filter_eq_nil_iff]
          intro entry within same
          obtain ⟨_, _, rfl⟩ := mem_map.mp within
          exact other (by simpa using same)
        obtain ⟨left, holder, right, parts, holds, others⟩ :=
          filter_markedAll children distinct.2 own below
        rw [Markup.filter_splice_of_html _ _ _ _ free]
        have sorted := mergeSort_perm (markedAll children) fun left right => left.1 ≤ right.1
        rw [parts] at sorted ⊢
        rw [flatMap_of_perm sorted others, holds]

theorem filter_markedAll : (children : List (Nat × Fragment)) →
    ((ownedAll children).map Prod.fst).Nodup → ∀ own ∈ ownedAll children,
      ∃ left holder right, markedAll children = left ++ holder :: right ∧
        holder.2.filter (·.1 == own.1) = own.2.map (own.1, ·) ∧
        ∀ part ∈ left ++ right, part.2.filter (·.1 == own.1) = []
  | [], _, own, member => by
      rw [ownedAll] at member
      cases member
  | (place, fragment) :: rest, distinct, own, member => by
      rw [ownedAll, map_append, nodup_append] at distinct
      obtain ⟨first, later, apart⟩ := distinct
      rw [ownedAll] at member
      rcases mem_append.mp member with here | there
      · refine ⟨[], (place, fragment.marked), markedAll rest, rfl,
          filter_marked fragment first own here, ?_⟩
        apply filter_markedAll_of_absent
        intro again
        exact apart own.1 (mem_map_of_mem here) own.1 again rfl
      · obtain ⟨left, holder, right, parts, holds, others⟩ := filter_markedAll rest later own there
        refine ⟨(place, fragment.marked) :: left, holder, right, by rw [markedAll, parts]; rfl,
          holds, ?_⟩
        intro part within
        rcases mem_cons.mp within with rfl | further
        · apply filter_marked_of_absent
          intro again
          exact apart own.1 again own.1 (mem_map_of_mem there) rfl
        · exact others part further

end

private theorem ownedAll_append (left right : List (Nat × Fragment)) :
    ownedAll (left ++ right) = ownedAll left ++ ownedAll right := by
  induction left with
  | nil => rfl
  | cons child rest ih =>
    obtain ⟨place, fragment⟩ := child
    rw [cons_append, ownedAll, ownedAll, ih, append_assoc]

theorem owned_insert (fragment child : Fragment) :
    (fragment.insert child).owned = fragment.owned ++ child.owned := by
  obtain ⟨key, html, children⟩ := fragment
  rw [insert, owned, owned, ownedAll_append, ownedAll, ownedAll, append_nil, cons_append]

end Fragment

end PageScript
