import PageScript.Compile.Pass

/-! Files that one directive includes together, and the order in which they are written. -/

namespace PageScript

/-- A file to be included: its code, the classes it declares and the classes it extends. -/
structure Inclusion where
  path : Path
  code : Text
  declared : List String
  parents : List String
  order : Nat

namespace Inclusion

def ofCode (path : Path) (code : Text) (order : Nat) : Inclusion :=
  let classes := ClassHeader.declaredClasses code
  { path, code, order
    declared := classes.map fun c => String.ofList c.name
    parents := classes.filterMap fun c => c.parentShort.map String.ofList }

def owner? (inclusions : List Inclusion) (name : String) : Option Nat :=
  inclusions.findIdx? fun inclusion => inclusion.declared.contains name

def dependents (inclusions : List Inclusion) (provider : Nat) : List Nat :=
  inclusions.zipIdx.filterMap fun (inclusion, index) =>
    if index ≠ provider ∧
        inclusion.parents.any (fun parent => owner? inclusions parent == some provider) then
      some index
    else none

abbrev Counts := List (Nat × Nat)

/-- How many numbers a count can be: counts are words, which start again from zero. -/
def wordSize : Nat :=
  Nat.pow 2 64

def sumWith (modulus : Nat) (count : Counts → Nat → Nat × Counts) :
    Counts → List Nat → Nat × Counts
  | counts, [] => (0, counts)
  | counts, index :: rest =>
      let (first, counts) := count counts index
      let (sum, counts) := sumWith modulus count counts rest
      ((first + sum) % modulus, counts)

/-- The reference count of an inclusion: one, and those of all that depend on it, modulo the size of a
word. One that is being counted adds nothing. The fuel bounds the inclusions that are being counted at
once. -/
def countOf (modulus : Nat) (dependents : Nat → List Nat) :
    Nat → List Nat → Counts → Nat → Nat × Counts
  | 0, _, counts, _ => (0, counts)
  | fuel + 1, counting, counts, index =>
      match counts.lookup index with
      | some count => (count, counts)
      | none =>
          if counting.contains index then (0, counts)
          else
            let (sum, counts) :=
              sumWith modulus (countOf modulus dependents fuel (index :: counting)) counts
                (dependents index)
            let count := (sum + 1) % modulus
            (count, (index, count) :: counts)

def countAll (modulus : Nat) (dependents : Nat → List Nat) (fuel : Nat) : Counts → List Nat → Counts
  | counts, [] => counts
  | counts, index :: rest =>
      countAll modulus dependents fuel (countOf modulus dependents fuel [] counts index).2 rest

def countsModulo (modulus : Nat) (inclusions : List Inclusion) : Counts :=
  countAll modulus (dependents inclusions) (inclusions.length + 1) [] (List.range inclusions.length)

def counts (inclusions : List Inclusion) : Counts :=
  countsModulo wordSize inclusions

def count (inclusions : List Inclusion) (index : Nat) : Nat :=
  ((counts inclusions).lookup index).getD 0

/-- The positions of the inclusions in the order in which they are written out: higher counts first,
and equal counts in the order in which they were met. -/
def emissionOrder (inclusions : List Inclusion) : List Nat :=
  let counts := counts inclusions
  let key (index : Nat) : Nat × Nat :=
    ((counts.lookup index).getD 0, (inclusions[index]?.map (·.order)).getD 0)
  let notAfter (left right : Nat) : Bool :=
    (key right).1 < (key left).1 || ((key left).1 == (key right).1 && (key left).2 ≤ (key right).2)
  (List.range inclusions.length).mergeSort notAfter

def ordered (inclusions : List Inclusion) : List Inclusion :=
  (emissionOrder inclusions).filterMap fun index => inclusions[index]?

/-- A class declared a second time: its name, the position of the declaration before and the position
of this one. -/
structure Clash where
  name : String
  first : Nat
  second : Nat

def Clash.loser (policy : DuplicatePolicy) (clash : Clash) : Nat :=
  match policy with
  | .firstWins => clash.second
  | .lastWins => clash.first

/-- The clashes of a list of declarations, each with its position, after the owners known so far. Under
the policy that the last one wins, a later declaration becomes the owner. -/
def clashesFrom (policy : DuplicatePolicy) :
    List (String × Nat) → List (String × Nat) → List Clash
  | _, [] => []
  | owners, (name, index) :: rest =>
      match owners.lookup name with
      | none => clashesFrom policy ((name, index) :: owners) rest
      | some first =>
          if first = index then clashesFrom policy owners rest
          else
            let owners := if policy = .lastWins then (name, index) :: owners else owners
            { name, first, second := index } :: clashesFrom policy owners rest

def clashes (policy : DuplicatePolicy) (inclusions : List Inclusion) : List Clash :=
  clashesFrom policy []
    (inclusions.zipIdx.flatMap fun (inclusion, index) => inclusion.declared.map (·, index))

def pathAt (inclusions : List Inclusion) (index : Nat) : Path :=
  (inclusions[index]?.map (·.path)).getD ⟨""⟩

def reportClash (policy : DuplicatePolicy) (inclusions : List Inclusion) (progress : Progress)
    (clash : Clash) : Progress :=
  let first := (pathAt inclusions clash.first).quoted
  let second := (pathAt inclusions clash.second).quoted
  progress.report .resolution (some (pathAt inclusions (clash.loser policy)))
    s!"duplicate class {clash.name} in {first} and {second}"

def dropDuplicates (policy : DuplicatePolicy) (inclusions : List Inclusion) (progress : Progress) :
    List Inclusion × Progress :=
  let clashes := clashes policy inclusions
  let losers := clashes.map (·.loser policy)
  let kept := inclusions.zipIdx.filterMap fun (inclusion, index) =>
    if losers.contains index then none else some { inclusion with order := index }
  (kept, clashes.foldl (reportClash policy inclusions) progress)

end Inclusion

end PageScript
