import PageScript.Data.Basic
import PageScript.Proofs.Keyed

/-! Values in order, and sorting them. -/

namespace PageScript

open Keyed List

namespace Data

mutual

/-- Something holds of a value and of everything inside of it. -/
def Every (holds : Data → Prop) : Data → Prop
  | .list items => holds (.list items) ∧ EveryItem holds items
  | .record fields => holds (.record fields) ∧ EveryField holds fields
  | .null => holds .null
  | .bool value => holds (.bool value)
  | .number value => holds (.number value)
  | .text value => holds (.text value)

def EveryItem (holds : Data → Prop) : List Data → Prop
  | [] => True
  | item :: rest => Every holds item ∧ EveryItem holds rest

def EveryField (holds : Data → Prop) : List (String × Data) → Prop
  | [] => True
  | (_, value) :: rest => Every holds value ∧ EveryField holds rest

end

variable {holds others both : Data → Prop}

theorem everyItem_iff {items : List Data} :
    EveryItem holds items ↔ ∀ item ∈ items, Every holds item := by
  induction items with
  | nil => simp [EveryItem]
  | cons item rest ih => rw [EveryItem, ih, forall_mem_cons]

theorem everyField_iff {fields : List (String × Data)} :
    EveryField holds fields ↔ ∀ field ∈ fields, Every holds field.2 := by
  induction fields with
  | nil => simp [EveryField]
  | cons field rest ih =>
    obtain ⟨name, value⟩ := field
    rw [EveryField, ih, forall_mem_cons]

/-- A list comes after its items, and a record after the values of its fields. -/
theorem nested_induct {motive : Data → Prop} (null : motive .null) (bool : ∀ value, motive (.bool value))
    (number : ∀ value, motive (.number value)) (text : ∀ value, motive (.text value))
    (list : ∀ items, (∀ item ∈ items, motive item) → motive (.list items))
    (record : ∀ fields, (∀ field ∈ fields, motive field.2) → motive (.record fields)) (data : Data) :
    motive data :=
  @Data.rec motive (fun items => ∀ item ∈ items, motive item) (fun fields => ∀ field ∈ fields, motive field.2)
    (fun field => motive field.2) null bool number text list record (forall_mem_nil _)
    (fun _ _ here later => forall_mem_cons.mpr ⟨here, later⟩) (forall_mem_nil _)
    (fun _ _ here later => forall_mem_cons.mpr ⟨here, later⟩) (fun _ _ held => held) data

theorem Every.and (join : ∀ data, holds data → others data → both data) (data : Data)
    (left : Every holds data) (right : Every others data) : Every both data := by
  induction data using nested_induct with
  | list items inner =>
    refine ⟨join _ left.1 right.1, everyItem_iff.mpr fun item member => inner item member ?_ ?_⟩
    · exact everyItem_iff.mp left.2 item member
    · exact everyItem_iff.mp right.2 item member
  | record fields inner =>
    refine ⟨join _ left.1 right.1, everyField_iff.mpr fun field member => inner field member ?_ ?_⟩
    · exact everyField_iff.mp left.2 field member
    · exact everyField_iff.mp right.2 field member
  | null | bool _ | number _ | text _ => exact join _ left right

def Ordered : Data → Prop
  | .record fields => Sorted fields
  | _ => True

private theorem putField_eq_put (name : String) (value : Data) (fields : List (String × Data)) :
    putField name value fields = put name value fields := by
  induction fields with
  | nil => rfl
  | cons field rest ih =>
    obtain ⟨other, old⟩ := field
    rw [putField, put, ih]

mutual

theorem sorted_of_every : (data : Data) → Every Ordered data → data.sorted = data
  | .null, _ => rfl
  | .bool _, _ => rfl
  | .number _, _ => rfl
  | .text _, _ => rfl
  | .list items, ordered => congrArg Data.list (sortedItems_of_every items ordered.2)
  | .record fields, ordered =>
    congrArg Data.record (sortedFields_of_every [] fields ordered.1 ordered.2)

theorem sortedItems_of_every : (items : List Data) → EveryItem Ordered items → sortedItems items = items
  | [], _ => rfl
  | item :: rest, ordered => by
      rw [sortedItems, sorted_of_every item ordered.1, sortedItems_of_every rest ordered.2]

theorem sortedFields_of_every : (done fields : List (String × Data)) → Sorted (done ++ fields) →
    EveryField Ordered fields → sortedFields done fields = done ++ fields
  | done, [], _, _ => (append_nil done).symm
  | done, (name, value) :: rest, sorted, ordered => by
      have last := Sorted.last sorted
      have more : Sorted (done ++ [(name, value)] ++ rest) := by
        rwa [append_assoc, singleton_append]
      rw [sortedFields, sorted_of_every value ordered.1, putField_eq_put, put_of_last last,
        sortedFields_of_every _ rest more ordered.2, append_assoc, singleton_append]

end

/-- Something that holds of a value by its numbers, and of a record only if its fields are in order. -/
structure Kept (holds kept : Data → Prop) : Prop where
  scalar : ∀ data, holds data → (∀ items, data ≠ .list items) → (∀ fields, data ≠ .record fields) →
    kept data
  list : ∀ items, kept (.list items)
  record : ∀ fields, Sorted fields → kept (.record fields)

mutual

theorem every_sorted {kept : Data → Prop} (keeps : Kept holds kept) :
    (data : Data) → Every holds data → Every kept data.sorted
  | .null, every => keeps.scalar _ every (by rintro _ ⟨⟩) (by rintro _ ⟨⟩)
  | .bool _, every => keeps.scalar _ every (by rintro _ ⟨⟩) (by rintro _ ⟨⟩)
  | .number _, every => keeps.scalar _ every (by rintro _ ⟨⟩) (by rintro _ ⟨⟩)
  | .text _, every => keeps.scalar _ every (by rintro _ ⟨⟩) (by rintro _ ⟨⟩)
  | .list items, every => ⟨keeps.list _, every_sortedItems keeps items every.2⟩
  | .record fields, every =>
    have sorted := every_sortedFields keeps [] fields .nil trivial every.2
    ⟨keeps.record _ sorted.1, sorted.2⟩

theorem every_sortedItems {kept : Data → Prop} (keeps : Kept holds kept) :
    (items : List Data) → EveryItem holds items → EveryItem kept (sortedItems items)
  | [], _ => trivial
  | item :: rest, every => ⟨every_sorted keeps item every.1, every_sortedItems keeps rest every.2⟩

theorem every_sortedFields {kept : Data → Prop} (keeps : Kept holds kept) :
    (done fields : List (String × Data)) → Sorted done → EveryField kept done →
      EveryField holds fields →
      Sorted (sortedFields done fields) ∧ EveryField kept (sortedFields done fields)
  | _, [], sorted, every, _ => ⟨sorted, every⟩
  | done, (name, value) :: rest, sorted, every, more => by
      rw [sortedFields, putField_eq_put]
      refine every_sortedFields keeps _ rest (sorted.put _ _) (everyField_iff.mpr ?_) more.2
      intro field member
      rcases mem_put member with rfl | old
      · exact every_sorted keeps value more.1
      · exact everyField_iff.mp every field old

end

end Data

end PageScript
