import PageScript.Data.Json.Printer
import PageScript.Proofs.Script.Scan

/-! Closed texts put together. One may end in a slash, which what follows could turn into a comment. -/

open List

namespace PageScript.Script

variable {left right text : Text} {c : Char}

def isNeutral (c : Char) : Bool :=
  ! ['\x27', '\x22', '\x60', '(', ')', '[', ']', '{', '}', '/', '*', '\\', '\n'].contains c

def Neutral (text : Text) : Prop :=
  ∀ c ∈ text, isNeutral c = true

instance (text : Text) : Decidable (Neutral text) :=
  List.decidableBAll (fun c => isNeutral c = true) text

theorem Neutral.append (first : Neutral left) (second : Neutral right) : Neutral (left ++ right) := by
  intro c member
  rcases mem_append.mp member with early | late
  · exact first c early
  · exact second c late

theorem isNeutral_of_class (member : Char → Bool)
    (none : ['\x27', '\x22', '\x60', '(', ')', '[', ']', '{', '}', '/', '*', '\\', '\n'].all
      (! member ·) = true) (belongs : member c = true) : isNeutral c = true := by
  unfold isNeutral
  rw [Bool.not_eq_true', ← Bool.not_eq_true, contains_iff_mem]
  intro special
  have absent := all_eq_true.mp none c special
  rw [belongs] at absent
  cases absent

theorem ne_of_isNeutral {d : Char} (neutral : isNeutral c = true) (special : isNeutral d = false) :
    c ≠ d := by
  rintro rfl
  rw [neutral] at special
  cases special

theorem isQuote_of_isNeutral (neutral : isNeutral c = true) : isQuote c = false := by
  simp [isQuote, ne_of_isNeutral neutral (rfl : isNeutral '\x27' = false),
    ne_of_isNeutral neutral (rfl : isNeutral '\x22' = false),
    ne_of_isNeutral neutral (rfl : isNeutral '\x60' = false)]

/-- The mode once a slash, an escape or a star has no effect any more. -/
def Mode.settled : Mode → Mode
  | .code _ => .code false
  | .literal quote _ => .literal quote false
  | .lineComment => .lineComment
  | .blockComment _ => .blockComment false

theorem Mode.settled_settled (mode : Mode) : mode.settled.settled = mode.settled := by
  cases mode <;> rfl

theorem Mode.next_of_neutral (neutral : isNeutral c = true) (mode : Mode) :
    mode.next c = mode.settled := by
  have unquoted := isQuote_of_isNeutral neutral
  have slash : c ≠ '/' := ne_of_isNeutral neutral rfl
  have star : c ≠ '*' := ne_of_isNeutral neutral rfl
  have escape : c ≠ '\\' := ne_of_isNeutral neutral rfl
  have newline : c ≠ '\n' := ne_of_isNeutral neutral rfl
  cases mode with
  | code slashed => simp [next, settled, slash, star, unquoted]
  | literal quote escaped =>
    have inside : c ≠ quote.val := by
      rintro rfl
      rw [quote.property] at unquoted
      cases unquoted
    cases escaped <;> simp [next, settled, escape, newline, inside]
  | lineComment => simp [next, settled, newline]
  | blockComment starred => simp [next, settled, slash, star]

theorem bracket_of_neutral (neutral : isNeutral c = true) (opened : List Char) :
    bracket opened c = some opened := by
  have opens : closerOf? c = none := by
    simp [closerOf?, ne_of_isNeutral neutral (rfl : isNeutral '(' = false),
      ne_of_isNeutral neutral (rfl : isNeutral '[' = false),
      ne_of_isNeutral neutral (rfl : isNeutral '{' = false)]
  have closes : isCloser c = false := by
    simp [isCloser, ne_of_isNeutral neutral (rfl : isNeutral ')' = false),
      ne_of_isNeutral neutral (rfl : isNeutral ']' = false),
      ne_of_isNeutral neutral (rfl : isNeutral '}' = false)]
  exact bracket_plain opens closes opened

namespace Scan

theorem run_neutral (neutral : Neutral text) (more : text ≠ []) (scan : Scan) :
    scan.run text = some ⟨scan.mode.settled, scan.opened⟩ := by
  induction text generalizing scan with
  | nil => exact absurd rfl more
  | cons c rest ih =>
    have first : isNeutral c = true := neutral c mem_cons_self
    have stepped : scan.step c = some ⟨scan.mode.settled, scan.opened⟩ := by
      unfold step
      rw [bracket_of_neutral first, Mode.next_of_neutral first, ite_self]
      rfl
    rw [run_cons, stepped, Option.bind_some]
    cases rest with
    | nil => rfl
    | cons d rest =>
      rw [ih (fun e member => neutral e (mem_cons_of_mem c member)) (cons_ne_nil d rest),
        Mode.settled_settled]

end Scan

def Solid (text : Text) : Prop :=
  Scan.start.run text = some Scan.start

theorem Scan.run_trans {scan next last : Scan} (first : scan.run left = some next)
    (second : next.run right = some last) : scan.run (left ++ right) = some last := by
  rw [run_append, first]
  exact second

theorem Solid.run (solid : Solid text) (opened : List Char) :
    Scan.run ⟨.code false, opened⟩ text = some ⟨.code false, opened⟩ :=
  Scan.run_append_opened solid opened

theorem Closed.run (closed : Closed text) (opened : List Char) :
    ∃ slash, Scan.run ⟨.code false, opened⟩ text = some ⟨.code slash, opened⟩ := by
  obtain ⟨slash, ran⟩ := closed_iff.mp closed
  exact ⟨slash, Scan.run_append_opened ran opened⟩

theorem Solid.closed (solid : Solid text) : Closed text :=
  closed_iff.mpr ⟨false, solid⟩

theorem Neutral.solid (neutral : Neutral text) : Solid text := by
  cases text with
  | nil => rfl
  | cons c rest => exact Scan.run_neutral neutral (cons_ne_nil c rest) Scan.start

theorem Solid.nil : Solid [] := rfl

theorem Solid.append (first : Solid left) (second : Solid right) : Solid (left ++ right) :=
  Scan.run_trans first second

theorem Solid.append_closed (first : Solid left) (second : Closed right) : Closed (left ++ right) := by
  obtain ⟨slash, ran⟩ := closed_iff.mp second
  exact closed_iff.mpr ⟨slash, Scan.run_trans first ran⟩

theorem Solid.flatMap {α : Type} {items : List α} {write : α → Text}
    (each : ∀ item ∈ items, Solid (write item)) : Solid (items.flatMap write) := by
  induction items with
  | nil => exact Solid.nil
  | cons item rest ih =>
    rw [flatMap_cons]
    exact (each item mem_cons_self).append
      (ih fun other member => each other (mem_cons_of_mem item member))

theorem Closed.between {before fragment after : Text} {inner : List Char}
    (closed : Closed fragment) (opens : Scan.start.run before = some ⟨.code false, inner⟩)
    (closes : ∀ slash, Scan.run ⟨.code slash, inner⟩ after = some Scan.start) :
    Solid (before ++ fragment ++ after) := by
  obtain ⟨slash, ran⟩ := closed.run inner
  exact Scan.run_trans (Scan.run_trans opens ran) (closes slash)

theorem closed_join {separator : Text} {items : List Text}
    (separates : ∀ slash, Scan.run ⟨.code slash, []⟩ separator = some Scan.start)
    (each : ∀ item ∈ items, Closed item) : Closed (Text.join separator items) := by
  induction items with
  | nil => exact Solid.nil.closed
  | cons first rest ih =>
    have own := each first mem_cons_self
    cases rest with
    | nil => exact own
    | cons second rest =>
      have others := ih fun item member => each item (mem_cons_of_mem first member)
      have ended : Solid ([] ++ first ++ separator) := own.between rfl separates
      exact ended.append_closed others

theorem Closed.matching? {inner : Text} (closed : Closed inner) (before after : Text) :
    matching? (before ++ ('(' :: inner ++ ')' :: after)) (Text.byteLength before) =
      some (Text.byteLength (before ++ '(' :: inner)) := by
  obtain ⟨slash, ran⟩ := closed_iff.mp closed
  have taken : ('(' :: inner ++ ')' :: after).take (inner.length + 1) = '(' :: inner := by
    simp
  unfold Script.matching?
  rw [Text.dropBytes?_append, Option.bind_eq_bind, Option.bind_some, closing?_of_run ran]
  change some (_ + Text.byteLength (('(' :: inner ++ ')' :: after).take (inner.length + 1))) = _
  rw [taken, Text.byteLength_append]

def doubleQuote : Quote := ⟨'\x22', rfl⟩

theorem digitChar_isNeutral (digit : Nat) (small : digit < 16) :
    isNeutral (Nat.digitChar digit) = true := by
  have all : ∀ digit < 16, isNeutral (Nat.digitChar digit) = true := by decide
  exact all digit small

theorem digits_neutral {c : Char} (control : c.toNat < 0x20) :
    Neutral ['0', '0', Nat.digitChar (c.toNat / 16), Nat.digitChar (c.toNat % 16)] := by
  have zeros : Neutral ['0', '0'] := by decide
  refine zeros.append ?_
  rw [Neutral, forall_mem_cons, forall_mem_singleton]
  exact ⟨digitChar_isNeutral _ (by omega), digitChar_isNeutral _ (by omega)⟩

private theorem run_escaped (c : Char) (opened : List Char) :
    Scan.run ⟨.literal doubleQuote false, opened⟩ (Json.escaped c) =
      some ⟨.literal doubleQuote false, opened⟩ := by
  unfold Json.escaped
  repeat' split
  · rfl
  · rfl
  · rfl
  · rfl
  · rfl
  · rfl
  · rfl
  · rename_i control
    exact Scan.run_neutral (digits_neutral control) (cons_ne_nil _ _) ⟨.literal doubleQuote false, opened⟩
  · rename_i quote escape newline _ _ _ _ _
    have stays : Mode.next (.literal doubleQuote false) c = .literal doubleQuote false := by
      simp [Mode.next, doubleQuote, quote, escape, newline]
    rw [Scan.run_cons, Scan.step_other rfl, stays]
    rfl

theorem quoted_solid (text : Text) : Solid (Json.quoted text) := by
  have inside : Scan.run ⟨.literal doubleQuote false, []⟩ (text.flatMap Json.escaped) =
      some ⟨.literal doubleQuote false, []⟩ := by
    induction text with
    | nil => rfl
    | cons c rest ih =>
      rw [flatMap_cons, Scan.run_append, run_escaped]
      exact ih
  unfold Solid Json.quoted
  rw [cons_append, Scan.run_cons]
  change Scan.run ⟨.literal doubleQuote false, []⟩ (text.flatMap Json.escaped ++ ['\x22']) = _
  rw [Scan.run_append, inside]
  rfl

end PageScript.Script
