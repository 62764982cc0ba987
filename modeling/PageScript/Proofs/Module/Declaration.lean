import PageScript.Proofs.Compile.Stages
import PageScript.Proofs.Directive.Client

/-! Declarations of modules, in the source and after comments are gone (`declared?_agrees_iff`). -/

open List

namespace PageScript

open Text Directive

/-- The characters of a text, each with whether it stays. -/
abbrev Marks := List (Char × Bool)

namespace Marks

def chars (marks : Marks) : Text :=
  marks.map Prod.fst

def left (marks : Marks) : Text :=
  chars (marks.filter Prod.snd)

def ofParts (parts : Rewriting) : Marks :=
  parts.flatMap fun part => part.1.map (·, !part.2.isEmpty)

/-- Of the characters that stay, a second choice is made. -/
def overlay : Marks → Marks → Marks
  | (_, true) :: outer, mark :: inner => mark :: overlay outer inner
  | (c, false) :: outer, inner => (c, false) :: overlay outer inner
  | outer, _ => outer

private theorem ofParts_spec {parts : Rewriting} (erases : parts.Erases) :
    (ofParts parts).chars = parts.source ∧ (ofParts parts).left = parts.result := by
  induction parts with
  | nil => exact ⟨rfl, rfl⟩
  | cons part rest ih =>
    obtain ⟨old, new⟩ := part
    obtain ⟨first, others⟩ := forall_mem_cons.mp erases
    obtain ⟨source, result⟩ := ih others
    rw [Rewriting.source_cons, Rewriting.result_cons, ← source, ← result]
    rcases first with rfl | ⟨c, same⟩
    · simp [ofParts, chars, left, filter_map, Function.comp_def]
    · cases same
      exact ⟨rfl, rfl⟩

private theorem overlay_spec {outer inner : Marks} (same : inner.chars = outer.left) :
    (overlay outer inner).chars = outer.chars ∧ (overlay outer inner).left = inner.left := by
  induction outer generalizing inner with
  | nil =>
    rw [map_eq_nil_iff.mp same]
    exact ⟨rfl, rfl⟩
  | cons mark outer ih =>
    obtain ⟨c, stays⟩ := mark
    cases stays with
    | false =>
      obtain ⟨whole, remains⟩ := ih same
      exact ⟨congrArg (c :: ·) whole, remains⟩
    | true =>
      cases inner with
      | nil => cases same
      | cons first inner =>
        obtain ⟨rfl, rest⟩ := List.cons.inj same
        obtain ⟨whole, remains⟩ := ih rest
        refine ⟨congrArg (first.1 :: ·) whole, ?_⟩
        rw [overlay, left, left, filter_cons, filter_cons]
        split
        · exact congrArg (first.1 :: ·) remains
        · exact remains

end Marks

/-- The longest parts of a text that stay or go as a whole. -/
structure Stretch where
  stays : Bool
  text : Text

namespace Stretch

def left (stretch : Stretch) : Text :=
  if stretch.stays then stretch.text else []

def names (stretch : Stretch) : List Text :=
  occurrences moduleName stretch.text

def ofMarks : Marks → List Stretch
  | [] => []
  | (c, stays) :: rest =>
      match ofMarks rest with
      | [] => [⟨stays, [c]⟩]
      | next :: others =>
          if next.stays = stays then ⟨stays, c :: next.text⟩ :: others
          else ⟨stays, [c]⟩ :: next :: others

private theorem ofMarks_spec (marks : Marks) : ((ofMarks marks).map text).flatten = marks.chars ∧
    ((ofMarks marks).map left).flatten = marks.left := by
  induction marks with
  | nil => exact ⟨rfl, rfl⟩
  | cons mark rest ih =>
    obtain ⟨c, stays⟩ := mark
    obtain ⟨whole, remains⟩ := ih
    have chars : Marks.chars ((c, stays) :: rest) = c :: Marks.chars rest := rfl
    have left_ : Marks.left ((c, stays) :: rest) = left ⟨stays, [c]⟩ ++ Marks.left rest := by
      cases stays <;> rfl
    rw [chars, left_, ← whole, ← remains, ofMarks]
    split
    · rename_i none
      rw [none]
      exact ⟨rfl, rfl⟩
    · rename_i next others more
      rw [more]
      split
      · rename_i same
        cases stays <;> simp [left, same]
      · exact ⟨rfl, rfl⟩

end Stretch

/-- A script in stretches. Directives that are commented out go, and comments. -/
def stretches (source : Text) : List Stretch :=
  Stretch.ofMarks (.overlay (.ofParts (uncommenting source))
    (.ofParts (stripping (dropCommentedOut source))))

private theorem flatten_stretches (source : Text) :
    ((stretches source).map Stretch.text).flatten = source ∧
      ((stretches source).map Stretch.left).flatten = uncommented source := by
  obtain ⟨first, live⟩ := Marks.ofParts_spec (erases_uncommenting source)
  obtain ⟨second, bare⟩ := Marks.ofParts_spec (erases_stripping (dropCommentedOut source))
  rw [uncommenting, Rewriting.source_replacing] at first
  rw [uncommenting, Rewriting.result_replacing] at live
  rw [source_stripping] at second
  rw [result_stripping] at bare
  obtain ⟨whole, remains⟩ := Marks.overlay_spec (second.trans live.symm)
  obtain ⟨texts, lefts⟩ := Stretch.ofMarks_spec _
  exact ⟨texts.trans (whole.trans first), lefts.trans (remains.trans bare)⟩

namespace Directive

variable {left right : Text}

/-- What is declared at a place in a text hangs on what follows the text: a declaration begins in the
one and ends in the other. -/
def divides : Text → Text → Bool
  | [], _ => false
  | c :: left, right =>
      moduleName [] (c :: left ++ right) !=
        (moduleName [] (c :: left)).map (fun found => (found.1, found.2 ++ right)) ||
      divides left right

private theorem moduleName_append (whole : divides left right = false) {c : Char} {part : Text}
    (within : c :: part <:+ left) (before : Text) : moduleName before (c :: part ++ right) =
      (moduleName before (c :: part)).map fun found => (found.1, found.2 ++ right) := by
  induction left with
  | nil => cases suffix_nil.mp within
  | cons d left ih =>
    obtain ⟨here, later⟩ := Bool.or_eq_false_iff.mp whole
    rcases suffix_cons_iff.mp within with same | within
    · cases same
      exact bne_eq_false_iff_eq.mp here
    · exact ih later within

private theorem occurrences_moduleName_append (whole : divides left right = false) :
    occurrences moduleName (left ++ right) =
      occurrences moduleName left ++ occurrences moduleName right := by
  have blind : Blind moduleName := fun _ _ _ => rfl
  unfold occurrences cut
  rw [cutFrom_append (fun before c part within => moduleName_append whole within before)
    (Nat.zero_le _), filterMap_append, blind.cutFrom (left.reverse ++ []) []]

def undivided : List Text → Bool
  | [] => true
  | text :: rest => !divides text rest.flatten && undivided rest

theorem occurrences_moduleName_flatten {texts : List Text} (whole : undivided texts = true) :
    occurrences moduleName texts.flatten = texts.flatMap (occurrences moduleName) := by
  induction texts with
  | nil => rfl
  | cons text rest ih =>
    obtain ⟨first, others⟩ := Bool.and_eq_true_iff.mp whole
    rw [flatten_cons, occurrences_moduleName_append (Bool.not_eq_eq_eq_not.mp first), ih others]
    rfl

end Directive

namespace Stretch

def namesLeft (stretches : List Stretch) : List Text :=
  (stretches.filter stays).flatMap names

/-- The names declared in stretches that go, up to the first declaration that stays. -/
def namesGone (stretches : List Stretch) : List Text :=
  (stretches.takeWhile fun stretch => !stretch.stays || stretch.names.isEmpty).flatMap names

private theorem head?_names (stretches : List Stretch) : (stretches.flatMap names).head? =
    (namesGone stretches).head?.or (namesLeft stretches).head? := by
  induction stretches with
  | nil => rfl
  | cons stretch rest ih =>
    unfold namesGone namesLeft at ih ⊢
    rw [flatMap_cons, head?_append, ih, takeWhile_cons, filter_cons]
    cases stretch.stays with
    | false => simp [Option.or_assoc]
    | true => cases found : stretch.names <;> simp [found]

private theorem flatMap_left (stretches : List Stretch) :
    (stretches.map left).flatMap (occurrences moduleName) = namesLeft stretches := by
  induction stretches with
  | nil => rfl
  | cons stretch rest ih =>
    unfold namesLeft at ih ⊢
    rw [map_cons, flatMap_cons, ih, filter_cons, left]
    cases stretch.stays <;> rfl

end Stretch

theorem Module.declared?_agrees_iff (file : Path) (source : Text)
    (whole : undivided ((stretches source).map Stretch.text) = true)
    (joined : undivided ((stretches source).map Stretch.left) = true) :
    occurrences moduleName source = (stretches source).flatMap Stretch.names ∧
    occurrences moduleName (uncommented source) = Stretch.namesLeft (stretches source) ∧
    ((declared? file source).map (·.name) =
        (occurrences moduleName (uncommented source)).head?.map String.ofList ↔
      ∀ name ∈ (Stretch.namesGone (stretches source)).head?,
        (occurrences moduleName (uncommented source)).head? = some name) := by
  obtain ⟨raw, remains⟩ := flatten_stretches source
  have found := occurrences_moduleName_flatten whole
  have present := occurrences_moduleName_flatten joined
  rw [raw, flatMap_map] at found
  rw [remains, Stretch.flatMap_left] at present
  have first : (declared? file source).map (·.name) =
      (occurrences moduleName source).head?.map String.ofList := by
    unfold declared?
    cases occurrences moduleName source <;> rfl
  refine ⟨found, present, ?_⟩
  have inj : String.ofList.Injective := fun _ _ => String.ofList_inj.mp
  rw [first, (Option.map_injective inj).eq_iff, found, present]
  change (flatMap Stretch.names _).head? = _ ↔ _
  rw [Stretch.head?_names]
  cases (Stretch.namesGone (stretches source)).head? with
  | none => simp
  | some name => simp [eq_comm]

def renamedModule : Text :=
  "// @lx:module Old;\nlet a; /* @lx:module Older; */\n@lx:module New;".toList

theorem Module.declared?_agrees_iff_renamed :
    undivided ((stretches renamedModule).map Stretch.text) = true ∧
    undivided ((stretches renamedModule).map Stretch.left) = true ∧
    (declared? ⟨"/a.js"⟩ renamedModule).map (·.name) ≠
      (occurrences moduleName (uncommented renamedModule)).head?.map String.ofList := by
  have whole : undivided ((stretches renamedModule).map Stretch.text) = true := by decide +kernel
  have joined : undivided ((stretches renamedModule).map Stretch.left) = true := by decide +kernel
  obtain ⟨_, present, agree⟩ := declared?_agrees_iff ⟨"/a.js"⟩ renamedModule whole joined
  refine ⟨whole, joined, fun same => ?_⟩
  have first := agree.mp same "Old".toList (by decide +kernel)
  rw [present] at first
  exact absurd first (by decide +kernel)

end PageScript
