import PageScript.Proofs.Data.Decoding
import PageScript.Proofs.Text.Cut

/-!
The whole numbers of values that are read from JSON text fit 64 bits (`Json.fitting_of_parse?`).
-/

open List

namespace PageScript

open Option

variable {text : Text} {holds : Data → Prop} {document : Document} {source : Source} {hops left : Nat}
  {tokens : List Token}

def Number.Fits : Number → Prop
  | .int value => -(Nat.pow 2 63 : Int) ≤ value ∧ value ≤ Json.maxWhole
  | .double _ => True

def Data.Fitting : Data → Prop
  | .number value => value.Fits
  | _ => True

namespace Json

theorem fits_of_numberOf? {negative : Bool} {whole fraction : List Char} {exponent : Option Int}
    {number : Number} (read : numberOf? negative whole fraction exponent = some number) :
    number.Fits := by
  have double : ∀ {result : Option Double}, result.map Number.double = some number → number.Fits := by
    intro result made
    obtain ⟨value, _, rfl⟩ := map_eq_some_iff.mp made
    trivial
  unfold numberOf? at read
  split at read
  · rename_i small
    simp only [Bool.and_eq_true, decide_eq_true_eq] at small
    have size : digitsValue whole ≤ maxWhole := small.2
    dsimp only at read
    split at read
    · split at read
      · exact double read
      · rename_i ranged
        cases read
        constructor
        · have least : (digitsValue whole : Int) ≤ (Nat.pow 2 63 : Nat) := by omega
          omega
        · omega
    · cases read
      constructor <;> omega
  · dsimp only at read
    split at read
    · obtain ⟨_, made⟩ := ite_none_right_eq_some.mp read
      cases made
      trivial
    · exact double read

theorem fits_of_number? {rest : Text} {number : Number} (read : number? text = some (some number, rest)) :
    number.Fits := by
  unfold number? at read
  split at read
  obtain ⟨⟨whole, _⟩, _, read⟩ := bind_eq_some_iff.mp read
  dsimp only at read
  split at read
  · cases read
  · obtain ⟨⟨fraction, _⟩, _, read⟩ := bind_eq_some_iff.mp read
    obtain ⟨⟨lower, exponent, _⟩, _, read⟩ := bind_eq_some_iff.mp read
    exact fits_of_numberOf? (congrArg Prod.fst (some.inj read))

def Token.Fits : Token → Prop
  | .plain (some value) => value.Every Data.Fitting
  | _ => True

private theorem fits_of_token {before rest : Text} {value : Token}
    (read : token before text = some (value, rest)) : value.Fits := by
  cases text with
  | nil => cases read
  | cons c text =>
    rw [token] at read
    split at read
    · cases read
      trivial
    split at read
    · obtain ⟨_, _, same⟩ := map_eq_some_iff.mp read
      cases same
      trivial
    split at read
    · obtain ⟨_, _, same⟩ := map_eq_some_iff.mp read
      cases same
      trivial
    split at read
    · obtain ⟨_, _, same⟩ := map_eq_some_iff.mp read
      cases same
      trivial
    split at read
    · obtain ⟨_, _, same⟩ := map_eq_some_iff.mp read
      cases same
      trivial
    · obtain ⟨⟨number, after⟩, taken, same⟩ := map_eq_some_iff.mp read
      cases same
      cases number with
      | none => trivial
      | some number => exact fits_of_number? taken

private theorem fits_of_tokens? (read : tokens? text = some tokens) :
    ∀ token ∈ tokens, token.Fits := by
  have fit : ∀ lexeme value, .found lexeme value ∈ Text.cut token text → value.Fits := by
    intro lexeme value member
    obtain ⟨_, _, _, seen⟩ := Text.recognised_of_mem_cutFrom member
    exact fits_of_token seen
  unfold tokens? at read
  revert fit read
  generalize Text.cut token text = pieces
  intro read fit
  induction pieces generalizing tokens with
  | nil =>
    cases read
    exact forall_mem_nil _
  | cons piece rest ih =>
    have later := fun lexeme value member => fit lexeme value (mem_cons_of_mem _ member)
    rw [foldr_cons] at read
    cases piece with
    | plain c =>
      obtain ⟨_, read⟩ := ite_none_right_eq_some.mp read
      exact ih read later
    | found lexeme value =>
      obtain ⟨others, more, rfl⟩ := map_eq_some_iff.mp read
      exact forall_mem_cons.mpr ⟨fit lexeme value mem_cons_self, ih more later⟩

end Json

/-- Every scalar of a document stands for something that holds in all its parts, and there are no
aliases. -/
inductive Document.Of (holds : Data → Prop) : Document → Prop
  | scalar {scalar : Scalar} (held : ∀ value, scalar.value = some value → value.Every holds) :
      Of holds (.scalar scalar)
  | list {items : List Document} (held : ∀ item ∈ items, Of holds item) : Of holds (.list items)
  | record {fields : List (Document × Document)} (held : ∀ field ∈ fields, Of holds field.2) :
      Of holds (.record fields)

theorem Document.of_ofData (data : Data) (every : data.Every holds) : Of holds (ofData data) := by
  induction data using Data.nested_induct with
  | list items inner =>
    rw [ofData, ofItems_eq_map]
    refine .list (forall_mem_map.mpr fun item member => inner item member ?_)
    exact Data.everyItem_iff.mp every.2 item member
  | record fields inner =>
    rw [ofData, ofFields_eq_map]
    refine .record (forall_mem_map.mpr fun field member => inner field member ?_)
    exact Data.everyField_iff.mp every.2 field member
  | null | bool _ | number _ | text _ => exact .scalar fun _ same => some.inj same ▸ every

namespace Json

open Document (Of)

abbrev Fit (document : Document) : Prop :=
  Of Data.Fitting document

theorem fit_of_document? {token : Token} (fits : token.Fits) (made : token.document? = some document) :
    Fit document := by
  unfold Token.document? at made
  split at made
  · cases made
  · cases made
    refine .scalar ?_
    rintro value ⟨⟩
    trivial
  · cases made
    exact Document.of_ofData _ fits
  · cases made
    exact .scalar (by rintro value ⟨⟩)
  · cases made
    exact .scalar (by rintro value ⟨⟩)

def Frame.Fit : Frame → Prop
  | .list items => ∀ item ∈ items, Json.Fit item
  | .record fields _ => ∀ field ∈ fields, Json.Fit field.2

def State.Fit : State → Prop
  | .value _ outer => ∀ frame ∈ outer, frame.Fit
  | .name _ fields outer => (∀ field ∈ fields, Json.Fit field.2) ∧ ∀ frame ∈ outer, frame.Fit
  | .colon fields _ outer => (∀ field ∈ fields, Json.Fit field.2) ∧ ∀ frame ∈ outer, frame.Fit
  | .complete item outer => Json.Fit item ∧ ∀ frame ∈ outer, frame.Fit

theorem State.Fit.step {state next : State} {token : Token} (fit : state.Fit) (fits : token.Fits)
    (done : state.step token = some next) : next.Fit := by
  unfold State.step at done
  split at done
  · -- a value is due, and a mark comes
    split at done
    · cases done
      exact forall_mem_cons.mpr ⟨forall_mem_nil _, fit⟩
    split at done
    · cases done
      exact ⟨forall_mem_nil _, fit⟩
    split at done
    · split at done
      · cases done
        obtain ⟨inner, rest⟩ := forall_mem_cons.mp fit
        exact ⟨.list fun item member => inner item (mem_reverse.mp member), rest⟩
      · cases done
    · cases done
  · obtain ⟨item, made, rfl⟩ := map_eq_some_iff.mp done
    exact ⟨fit_of_document? fits made, fit⟩
  · obtain ⟨field, _, rfl⟩ := map_eq_some_iff.mp done
    exact fit
  · cases done
    exact ⟨.record fun field member => fit.1 field (mem_reverse.mp member), fit.2⟩
  · cases done
    exact forall_mem_cons.mpr fit
  · -- an item of a list is complete
    obtain ⟨item, outside⟩ := fit
    obtain ⟨items, outer⟩ := forall_mem_cons.mp outside
    have all := forall_mem_cons.mpr ⟨item, items⟩
    split at done
    · cases done
      exact forall_mem_cons.mpr ⟨all, outer⟩
    split at done
    · cases done
      exact ⟨.list fun item member => all item (mem_reverse.mp member), outer⟩
    · cases done
  · -- a field of a record is complete
    rename_i held before name _ _
    obtain ⟨item, outside⟩ := fit
    obtain ⟨fields, outer⟩ := forall_mem_cons.mp outside
    have all : ∀ field ∈ (name, held) :: before, Json.Fit field.2 :=
      forall_mem_cons.mpr ⟨item, fields⟩
    split at done
    · cases done
      exact ⟨all, outer⟩
    split at done
    · cases done
      exact ⟨.record fun field member => all field (mem_reverse.mp member), outer⟩
    · cases done
  · cases done

theorem State.Fit.foldlM {state final : State} (fit : state.Fit)
    (fits : ∀ token ∈ tokens, token.Fits) (done : tokens.foldlM State.step state = some final) :
    final.Fit := by
  induction tokens generalizing state with
  | nil =>
    cases done
    exact fit
  | cons token rest ih =>
    obtain ⟨here, there⟩ := forall_mem_cons.mp fits
    rw [foldlM_cons] at done
    obtain ⟨next, stepped, done⟩ := bind_eq_some_iff.mp done
    exact ih (fit.step here stepped) there done

private theorem fit_of_read (read : document? text = some document) : Fit document := by
  obtain ⟨tokens, cut, read⟩ := bind_eq_some_iff.mp read
  obtain ⟨final, folded, read⟩ := bind_eq_some_iff.mp read
  have start : State.Fit (.value false []) := forall_mem_nil _
  have fit : final.Fit := start.foldlM (fits_of_tokens? cut) folded
  split at read
  · cases read
    exact fit.1
  · cases read

end Json

namespace Decoding

variable {α β : Type}

theorem forall_of_mapM {take : β → Decoding α} {items : List β} {values : List α} {holds : α → Prop}
    (done : items.mapM take source hops = some (values, left))
    (each : ∀ item ∈ items, ∀ hops value left, take item source hops = some (value, left) → holds value) :
    ∀ value ∈ values, holds value := by
  induction items generalizing hops values left with
  | nil =>
    cases done
    exact forall_mem_nil _
  | cons item rest ih =>
    obtain ⟨here, there⟩ := forall_mem_cons.mp each
    rw [List.mapM_cons] at done
    obtain ⟨value, _, taken, done⟩ := bind_eq_some.mp done
    obtain ⟨others, _, more, done⟩ := bind_eq_some.mp done
    cases done
    exact forall_mem_cons.mpr ⟨here _ _ _ taken, ih more there⟩

end Decoding

namespace Document

private theorem followed_eq_some {result : Document} (of : document.Of holds)
    (done : document.followed source hops = some (result, left)) : result = document := by
  cases of <;> cases done <;> rfl

private theorem every_of_dataWithin {depth : Nat} {data : Data} (fit : document.Of Data.Fitting)
    (done : dataWithin depth document source hops = some (data, left)) : data.Every Data.Fitting := by
  induction depth generalizing document data hops left with
  | zero =>
    obtain ⟨found, _, followed, done⟩ := Decoding.bind_eq_some.mp done
    cases followed_eq_some fit followed
    split at done
    · cases done
      cases fit with
      | scalar held => exact held _ rfl
    · cases done
  | succ depth ih =>
    obtain ⟨found, _, followed, done⟩ := Decoding.bind_eq_some.mp done
    cases followed_eq_some fit followed
    split at done
    · cases done
      cases fit with
      | scalar held => exact held _ rfl
    · obtain ⟨values, _, taken, done⟩ := Decoding.bind_eq_some.mp done
      cases done
      cases fit with
      | list held =>
        refine ⟨trivial, Data.everyItem_iff.mpr (Decoding.forall_of_mapM taken ?_)⟩
        intro item member hops value left done
        exact ih (held item member) done
    · obtain ⟨values, _, taken, done⟩ := Decoding.bind_eq_some.mp done
      cases done
      cases fit with
      | record held =>
        refine ⟨trivial, Data.everyField_iff.mpr (Decoding.forall_of_mapM taken ?_)⟩
        intro field member hops value left done
        obtain ⟨key, _, _, done⟩ := Decoding.bind_eq_some.mp done
        obtain ⟨inside, _, within, done⟩ := Decoding.bind_eq_some.mp done
        cases done
        exact ih (held field member) within
    · cases done

end Document

namespace Json

theorem fitting_of_parse? {data : Data} (read : parse? text = some data) : data.Every Data.Fitting := by
  obtain ⟨source, parsed, read⟩ := bind_eq_some_iff.mp read
  obtain ⟨document, found, rfl⟩ := map_eq_some_iff.mp parsed
  obtain ⟨⟨value, left⟩, taken, rfl⟩ := map_eq_some_iff.mp read
  exact Document.every_of_dataWithin (fit_of_read found) taken

end Json

end PageScript
