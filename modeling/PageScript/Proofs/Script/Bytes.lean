import PageScript.Proofs.Script.Solid
import PageScript.Proofs.Script.Stripping
import PageScript.Proofs.Text.Rewriting

/-! Comments taken out by the places of bytes. All that a scan looks for is ASCII (`cutFrom_raw`). -/

open List

namespace PageScript

open Text Option

namespace Text

/-- The bytes of a text, each as a character for recognisers to read. -/
def raw (text : Text) : Text :=
  text.utf8.map Char.ofUInt8

def rawBefore (before : Text) : Text :=
  (raw before.reverse).reverse

private theorem raw_append (left right : Text) : raw (left ++ right) = raw left ++ raw right := by
  rw [raw, utf8, flatMap_append, map_append]
  rfl

private theorem raw_cons (c : Char) (rest : Text) : raw (c :: rest) = raw [c] ++ raw rest :=
  raw_append [c] rest

private theorem rawBefore_append (taken before : Text) :
    rawBefore (taken.reverse ++ before) = (raw taken).reverse ++ rawBefore before := by
  rw [rawBefore, reverse_append, reverse_reverse, raw_append, reverse_append]
  rfl

theorem length_raw (text : Text) : (raw text).length = byteLength text := by
  induction text with
  | nil => rfl
  | cons c rest ih =>
    rw [raw_cons, length_append, ih, byteLength_cons, ← String.length_utf8EncodeChar]
    simp [raw, utf8]

private theorem raw_cases (c : Char) :
    raw [c] = [c] ∨ 127 < c.toNat ∧ raw [c] ≠ [] ∧ ∀ b ∈ raw [c], 127 < b.toNat := by
  have single : raw [c] = (String.utf8EncodeChar c).map Char.ofUInt8 := by simp [raw, utf8]
  have code (byte : UInt8) : (Char.ofUInt8 byte).toNat = byte.toNat := UInt8.toNat_toUInt32 byte
  rw [single, List.forall_mem_map]
  unfold String.utf8EncodeChar
  dsimp only
  split
  · rename_i ascii
    refine .inl (congrArg (fun c => [c]) (Char.ext (UInt32.toNat_inj.mp ?_)))
    exact (code _).trans (UInt8.toNat_ofNat_of_lt' (Nat.lt_of_le_of_lt ascii (by decide)))
  · rename_i wide
    refine .inr ⟨Nat.lt_of_not_le wide, ?_⟩
    simp only [code]
    split
    · simp [UInt8.toNat_ofNat']
      omega
    · split <;> simp [UInt8.toNat_ofNat'] <;> omega

/-- The text between two of its bytes. There is none if the second comes first, or if one of them is
past the end or inside a character. -/
def between? (text : Text) (start stop : Nat) : Option Text := do
  let rest ← text.dropBytes? start
  let after ← rest.dropBytes? (stop - start)
  if start ≤ stop then some (rest.take (rest.length - after.length)) else none

private theorem between?_append (left middle right : Text) :
    between? (left ++ middle ++ right) (byteLength left) (byteLength (left ++ middle)) =
      some middle := by
  rw [between?, append_assoc, dropBytes?_append, byteLength_append, Nat.add_sub_cancel_left]
  simp [dropBytes?_append]

end Text

namespace Script

variable {c : Char}

private theorem isNeutral_of_wide (wide : 127 < c.toNat) : isNeutral c = true :=
  isNeutral_of_class (fun c => 127 < c.toNat) (by decide) (decide_eq_true wide)

namespace Inside

def settled : Inside → Inside
  | .literal quote _ => .literal quote false
  | .pattern inClass _ => .pattern inClass false
  | .lineComment => .lineComment
  | .blockOpening => .blockComment false
  | .blockComment _ => .blockComment false

private theorem move_of_neutral (neutral : isNeutral c = true) (inside : Inside) :
    inside.move c = .on inside.settled := by
  have escape : c ≠ '\\' := ne_of_isNeutral neutral rfl
  have newline : c ≠ '\n' := ne_of_isNeutral neutral rfl
  have slash : c ≠ '/' := ne_of_isNeutral neutral rfl
  have star : c ≠ '*' := ne_of_isNeutral neutral rfl
  have opening : c ≠ '[' := ne_of_isNeutral neutral rfl
  have closing : c ≠ ']' := ne_of_isNeutral neutral rfl
  cases inside with
  | literal quote escaped =>
    have quoted : c ≠ quote.val := by
      rintro rfl
      exact absurd quote.property (by simp [isQuote_of_isNeutral neutral])
    cases escaped <;> simp [move, settled, escape, newline, quoted]
  | pattern inClass escaped =>
    cases escaped <;> simp [move, settled, escape, newline, slash, opening, closing]
  | lineComment => simp [move, settled, newline]
  | blockOpening => rfl
  | blockComment star' => simp [move, settled, slash, star]

theorem pass_neutral {bytes : Text} (more : bytes ≠ []) (neutral : Neutral bytes)
    (inside : Inside) (rest : Text) : inside.pass (bytes ++ rest) = inside.settled.pass rest := by
  induction bytes generalizing inside with
  | nil => exact absurd rfl more
  | cons b bytes ih =>
    obtain ⟨first, others⟩ := forall_mem_cons.mp neutral
    rw [cons_append, pass_of_on (move_of_neutral first inside)]
    cases bytes with
    | nil => rfl
    | cons d bytes =>
      rw [ih (cons_ne_nil d bytes) others]
      cases inside <;> rfl

theorem pass_raw (inside : Inside) (text : Text) : inside.pass (raw text) = raw (inside.pass text) := by
  induction text generalizing inside with
  | nil => rfl
  | cons c rest ih =>
    rw [raw_cons]
    rcases raw_cases c with ascii | ⟨wide, more, bytes⟩
    · rw [ascii, singleton_append, pass, pass]
      cases inside.move c with
      | stop => exact ((raw_cons c rest).trans (congrArg (· ++ raw rest) ascii)).symm
      | last => rfl
      | on next => exact ih next
    · rw [pass_neutral more fun b member => isNeutral_of_wide (bytes b member), ih,
        pass_of_on (move_of_neutral (isNeutral_of_wide wide) inside)]

end Inside

private theorem opens?_neutral (neutral : isNeutral c = true) (before : Text)
    (next : Option Char) : opens? before c next = none := by
  rw [opens?, if_neg (ne_of_isNeutral neutral rfl), dif_neg (by simp [isQuote_of_isNeutral neutral])]

private theorem opensPattern_cons (c : Char) (before : Text) :
    opensPattern (c :: before) =
      if isAsciiBlank c then opensPattern before else "(,=:[!&|?\x7b\x7d;".toList.contains c := by
  unfold opensPattern
  rw [find?_cons]
  cases isAsciiBlank c <;> rfl

private theorem opensPattern_wide (wide : 127 < c.toNat) (before : Text) :
    opensPattern (c :: before) = false := by
  have blank : isAsciiBlank c = false := by
    rw [← Bool.not_eq_true]
    intro blank
    simp only [isAsciiBlank, Bool.or_eq_true, beq_iff_eq] at blank
    rcases blank with (((rfl | rfl) | rfl) | rfl) | rfl <;> exact absurd wide (by decide)
  have low : ("(,=:[!&|?\x7b\x7d;".toList.all fun d => d.toNat < 128) = true := by decide
  rw [opensPattern_cons, blank, if_neg Bool.false_ne_true, ← Bool.not_eq_true, contains_iff_mem]
  intro member
  have ascii := of_decide_eq_true (all_eq_true.mp low c member)
  omega

theorem opensPattern_raw (before : Text) : opensPattern (rawBefore before) = opensPattern before := by
  induction before with
  | nil => rfl
  | cons c before ih =>
    rw [← singleton_append, ← reverse_singleton, rawBefore_append]
    rcases raw_cases c with ascii | ⟨wide, more, bytes⟩
    · rw [ascii, reverse_singleton, singleton_append, singleton_append,
        opensPattern_cons, opensPattern_cons, ih]
    · obtain ⟨b, others, same⟩ := exists_cons_of_ne_nil (reverse_ne_nil_iff.mpr more)
      have first : b ∈ raw [c] := mem_reverse.mp (same ▸ mem_cons_self)
      rw [same, cons_append, opensPattern_wide (bytes b first)]
      exact (opensPattern_wide wide before).symm

private theorem head?_bytes {c d : Char} (ascii : d.toNat < 128) {bytes : Text} (more : bytes ≠ [])
    (within : ∀ b ∈ bytes, b ∈ raw [c]) (rest : Text) : (bytes ++ rest).head? = some d ↔ c = d := by
  obtain ⟨b, others, rfl⟩ := exists_cons_of_ne_nil more
  have first := within b mem_cons_self
  rw [cons_append, head?_cons, some.injEq]
  rcases raw_cases c with same | ⟨wide, _, bytes⟩
  · rw [same, mem_singleton] at first
    rw [first]
  · have apart := bytes b first
    constructor <;> (rintro rfl; omega)

private theorem raw_ne_nil (c : Char) : raw [c] ≠ [] := by
  rcases raw_cases c with ascii | ⟨_, more, _⟩
  · rw [ascii]
    exact cons_ne_nil c []
  · exact more

private theorem head?_raw {d : Char} (ascii : d.toNat < 128) (text : Text) :
    (raw text).head? = some d ↔ text.head? = some d := by
  cases text with
  | nil => rfl
  | cons c rest =>
    rw [raw_cons, head?_bytes ascii (raw_ne_nil c) fun _ member => member, head?_cons,
      some.injEq]

private theorem head?_rawBefore {d : Char} (ascii : d.toNat < 128) (before : Text) :
    (rawBefore before).head? = some d ↔ before.head? = some d := by
  cases before with
  | nil => rfl
  | cons c before =>
    rw [← singleton_append, ← reverse_singleton, rawBefore_append,
      head?_bytes ascii (reverse_ne_nil_iff.mpr (raw_ne_nil c)) fun _ => mem_reverse.mp]
    simp

private theorem opens?_raw (before : Text) (c : Char) (text : Text) :
    opens? (rawBefore before) c (raw text).head? = opens? before c text.head? := by
  unfold opens?
  simp only [head?_raw (by decide : '/'.toNat < 128), head?_raw (by decide : '*'.toNat < 128),
    head?_rawBefore (by decide : ':'.toNat < 128), opensPattern_raw]

def spread : Piece Lexeme → List (Piece Lexeme)
  | .plain c => (raw [c]).map .plain
  | .found lexeme kind => [.found (raw lexeme) kind]

private theorem cutFrom_raw {before text : Text} {pieces : List (Piece Lexeme)}
    (pieced : cutFrom lexeme before 0 text = pieces) :
    cutFrom lexeme (rawBefore before) 0 (raw text) = pieces.flatMap spread := by
  induction pieces generalizing before text with
  | nil =>
    have whole := flatMap_source_cutFrom lexeme before text 0
    rw [pieced] at whole
    cases whole
    rfl
  | cons piece pieces ih =>
    rcases lexeme_consumes.cons_inv pieced with
      ⟨c, rest, rfl, seen, rfl, others⟩ | ⟨c, tail, rest, kind, rfl, seen, rfl, others⟩
    · have later := ih others
      rw [← singleton_append, ← reverse_singleton, rawBefore_append] at later
      rw [raw_cons, flatMap_cons, spread, ← later]
      rcases raw_cases c with ascii | ⟨_, _, bytes⟩
      · have again : lexeme (rawBefore before) (c :: raw rest) = none := by
          rw [lexeme_eq, map_eq_none_iff] at seen ⊢
          rw [opens?_raw, seen]
        rw [ascii, singleton_append, cutFrom, again]
        rfl
      · refine cutFrom_silent (fun before part more within => ?_) _
        obtain ⟨b, part, rfl⟩ := exists_cons_of_ne_nil more
        have neutral := isNeutral_of_wide (bytes b (within.subset mem_cons_self))
        rw [cons_append, lexeme_eq, opens?_neutral neutral]
        rfl
    · obtain ⟨inside, opens, ended⟩ := lexeme_eq_some seen
      have ascii : raw (c :: tail) = c :: raw tail := by
        rcases raw_cases c with ascii | ⟨wide, _⟩
        · rw [raw_cons, ascii]
          rfl
        · rw [opens?_neutral (isNeutral_of_wide wide)] at opens
          cases opens
      have again : lexeme (rawBefore before) (c :: raw tail ++ raw rest) = some (kind, raw rest) := by
        rw [cons_append, ← raw_append, lexeme_eq, opens?_raw, opens, map_some,
          Inside.pass_raw, ended]
      have later := ih others
      rw [rawBefore_append] at later
      rw [raw_append, flatMap_cons, spread, ascii,
        cutFrom_found (cons_ne_nil _ _) again, ← later, ascii]
      rfl

/-- Comments taken out of a text, by the pieces of its bytes from byte `position` on. What comes
before byte `written` is done. -/
def stripFrom? (text : Text) : Nat → Nat → List (Piece Lexeme) → Option Text
  | written, position, [] => text.between? written position
  | written, position, .plain _ :: rest => stripFrom? text written (position + 1) rest
  | written, position, .found bytes .literal :: rest =>
      stripFrom? text written (position + bytes.length) rest
  | written, position, .found bytes .comment :: rest => do
      let kept ← text.between? written position
      let comment ← text.between? position (position + bytes.length)
      let others ← stripFrom? text (position + bytes.length) (position + bytes.length) rest
      return kept ++ (List.replicate (newlines comment) '\n' ++ others)

def stripBytes? (text : Text) : Option Text :=
  stripFrom? text 0 0 (cut lexeme (raw text))

theorem stripFrom?_plain (text bytes : Text) (written position : Nat) (rest : List (Piece Lexeme)) :
    stripFrom? text written position (bytes.map .plain ++ rest) =
      stripFrom? text written (position + bytes.length) rest := by
  induction bytes generalizing position with
  | nil => rfl
  | cons b bytes ih =>
    rw [map_cons, cons_append, stripFrom?, ih, length_cons, Nat.add_assoc,
      Nat.add_comm 1]

private theorem stripFrom?_spread (done middle : Text) (pieces : List (Piece Lexeme)) :
    stripFrom? (done ++ middle ++ pieces.flatMap Piece.source) (byteLength done)
      (byteLength (done ++ middle)) (pieces.flatMap spread) = some (middle ++ remains pieces) := by
  induction pieces generalizing done middle with
  | nil =>
    have last := between?_append done middle []
    exact last.trans (congrArg some (append_nil middle).symm)
  | cons piece rest ih =>
    have moved (part : Text) :
        stripFrom? (done ++ middle ++ (part ++ rest.flatMap Piece.source)) (byteLength done)
          (byteLength (done ++ middle) + byteLength part) (rest.flatMap spread) =
            some (middle ++ (part ++ remains rest)) := by
      have later := ih done (middle ++ part)
      rwa [← append_assoc, byteLength_append _ part, append_assoc _ part,
        append_assoc _ part] at later
    rw [flatMap_cons, flatMap_cons]
    cases piece with
    | plain c =>
      rw [spread, stripFrom?_plain, length_raw]
      exact moved [c]
    | found lexeme kind =>
      rw [spread, singleton_append]
      cases kind with
      | literal =>
        rw [stripFrom?, length_raw]
        exact moved lexeme
      | comment =>
        have kept := between?_append done middle (lexeme ++ rest.flatMap Piece.source)
        have comment := between?_append (done ++ middle) lexeme (rest.flatMap Piece.source)
        have others := ih (done ++ middle ++ lexeme) []
        rw [append_nil, byteLength_append _ lexeme, append_assoc _ lexeme] at others
        rw [byteLength_append _ lexeme, append_assoc _ lexeme] at comment
        rw [stripFrom?, length_raw, Piece.source, kept, comment, others]
        rfl

private theorem remains_sublist (pieces : List (Piece Lexeme)) :
    (remains pieces).Sublist (pieces.flatMap Piece.source) := by
  induction pieces with
  | nil => exact List.Sublist.refl []
  | cons piece rest ih =>
    cases piece with
    | plain c => exact ih.cons_cons c
    | found lexeme kind =>
      cases kind with
      | literal => exact (List.Sublist.refl lexeme).append ih
      | comment => exact (replicate_sublist_iff.mpr (Nat.le_refl _)).append ih

private theorem newlines_remains (pieces : List (Piece Lexeme)) :
    newlines (remains pieces) = newlines (pieces.flatMap Piece.source) := by
  induction pieces with
  | nil => rfl
  | cons piece rest ih =>
    cases piece with
    | plain c =>
      exact (newlines_append [c] _).trans ((congrArg _ ih).trans (newlines_append [c] _).symm)
    | found lexeme kind =>
      rw [flatMap_cons, newlines_append, ← ih]
      cases kind with
      | literal => exact newlines_append lexeme _
      | comment =>
        refine (newlines_append _ _).trans (congrArg (· + _) ?_)
        exact count_replicate_self

/-- By its bytes, every text loses its comments: no place is past the end or inside a character, and
what is left is part of the text, with all its line ends. -/
theorem stripBytes?_eq (text : Text) :
    stripBytes? text = some (stripComments text) ∧ (stripComments text).Sublist text ∧
      newlines (stripComments text) = newlines text := by
  have whole := Text.flatMap_source_cut lexeme text
  have stripped := stripFrom?_spread [] [] (cut lexeme text)
  have sublist := remains_sublist (cut lexeme text)
  have ends := newlines_remains (cut lexeme text)
  rw [whole] at stripped sublist ends
  have raised : cutFrom lexeme (rawBefore []) 0 (raw text) = (cut lexeme text).flatMap spread :=
    cutFrom_raw rfl
  exact ⟨(congrArg (stripFrom? text 0 0) raised).trans stripped, sublist, ends⟩

end Script

end PageScript
