/-! Associations held in the order of their keys, each key once. -/

namespace PageScript

abbrev Keyed (α : Type) := List (String × α)

namespace Keyed

variable {α : Type}

def get? (keyed : Keyed α) (key : String) : Option α :=
  keyed.lookup key

def put (key : String) (value : α) : Keyed α → Keyed α
  | [] => [(key, value)]
  | (other, old) :: rest =>
      if key < other then (key, value) :: (other, old) :: rest
      else if key = other then (key, value) :: rest
      else (other, old) :: put key value rest

def putNew (key : String) (value : α) (keyed : Keyed α) : Keyed α :=
  if (get? keyed key).isSome then keyed else put key value keyed

def putAll (added keyed : Keyed α) : Keyed α :=
  added.foldl (fun all entry => put entry.1 entry.2 all) keyed

def keys (keyed : Keyed α) : List String :=
  keyed.map (·.1)

/-- The associations of a list, the last of equal keys winning. -/
def ofList (pairs : List (String × α)) : Keyed α :=
  pairs.foldl (fun keyed (key, value) => put key value keyed) []

end Keyed

end PageScript
